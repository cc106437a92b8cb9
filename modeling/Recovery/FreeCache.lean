import Recovery.Storage

/-!
`freecache.c`: room on `/cache` is made by deleting regular files, in two
directories, that no process has open. The saved source is never one of them.
-/
namespace Recovery.FreeCache
open Program Program.Prog Storage List

def cacheTempSource : Path := "/cache/saved.file".toList

def deletableDirs : List Path := ["/cache".toList, "/cache/recovery/otatest".toList]

/-- `EliminateOpenFiles`: files that a process has open are struck from the list. -/
def eliminateOpenFiles (links : List (Path × Option (List Path))) (files : List (Option Path)) : List (Option Path) :=
  let numeric := links.filter fun (name, _) => name.all Char.isDigit
  let opened := (numeric.filterMap Prod.snd).flatten.filter fun link => "/cache/".toList.isPrefixOf link
  files.map fun file => file.filter fun path => ¬ opened.contains path

def isRegular (s : Storage) (path : Path) : Bool :=
  match s.files path with
  | some node => node.regular && node.fault != some .stat
  | none => false

/-- The regular files that the listing of a directory names, without the saved
    source. -/
def expendableIn (s : Storage) (dir : Path) (names : List Path) : List Path :=
  (names.map fun name => dir ++ ['/'] ++ name).filter fun path => path ≠ cacheTempSource && isRegular s path

def listExpendable : List Path → Op (List Path)
  | [] => pure []
  | dir :: dirs => do
    let answer ← ask
    let s ← get
    let rest ← listExpendable dirs
    pure ((if answer.ok then expendableIn s dir answer.names else []) ++ rest)

/-- `FindExpendableFiles`; none when `/proc` cannot be read. -/
def findExpendableFiles : Op (Option (List (Option Path))) := do
  let names ← listExpendable deletableDirs
  let answer ← ask
  pure (if answer.ok then some (eliminateOpenFiles answer.links (names.map some)) else none)

def deleteLoop (bytesNeeded : Nat) : List (Option Path) → Nat → Op Nat
  | [], freeNow => pure freeNow
  | name :: names, freeNow =>
    if freeNow < bytesNeeded then
      match name with
      | none => deleteLoop bytesNeeded names freeNow
      | some path => do
        unlink path
        let freeNow ← freeSpaceForFile "/cache".toList
        deleteLoop bytesNeeded names freeNow
    else pure freeNow

def makeFreeSpaceOnCache (bytesNeeded : Nat) : Op Int := do
  let freeNow ← freeSpaceForFile "/cache".toList
  if freeNow ≥ bytesNeeded then pure 0
  else match ← findExpendableFiles with
    | none => pure (-1)
    | some names =>
      if names = [] then pure (-1)
      else do
        let freeNow ← deleteLoop bytesNeeded names freeNow
        pure (if freeNow ≥ bytesNeeded then 0 else -1)

def Deletable (path : Path) : Prop :=
  path ≠ cacheTempSource ∧ ∃ dir ∈ deletableDirs, ∃ name, path = dir ++ ['/'] ++ name

/-! ## What is deleted -/

private theorem expendableIn_deletable {s : Storage} {dir : Path} (member : dir ∈ deletableDirs) {names : List Path} :
    ∀ path ∈ expendableIn s dir names, Deletable path := by
  intro path found
  simp only [expendableIn,mem_filter,mem_map,Bool.and_eq_true,decide_eq_true_eq] at found
  obtain ⟨⟨name,-,rfl⟩,other,-⟩ := found
  exact ⟨other,dir,member,name,rfl⟩

private theorem listExpendable_deletable {P : Storage → Prop} {dirs : List Path} (all : ∀ dir ∈ dirs, dir ∈ deletableDirs) :
    Triple P (listExpendable dirs) (fun paths s => P s ∧ ∀ path ∈ paths, Deletable path) P := by
  induction dirs with
  | nil => exact triple_pure _ fun s holds => ⟨holds,by simp⟩
  | cons dir dirs ih =>
    refine triple_ask_bind (fun _ holds => holds) fun answer =>
      triple_bind (triple_get (Q := fun _ => P) fun _ holds => holds) fun s =>
      triple_bind (ih fun d member => all d (mem_cons_of_mem _ member)) fun rest =>
      triple_pure _ fun t holds => ⟨holds.1,?_⟩
    intro path found
    rcases mem_append.mp found with here | there
    · split at here
      · exact expendableIn_deletable (all dir mem_cons_self) path here
      · cases here
    · exact holds.2 path there
theorem eliminateOpenFiles_mem {links : List (Path × Option (List Path))} {names : List Path} {path : Path}
    (found : some path ∈ eliminateOpenFiles links (names.map some)) : path ∈ names := by
  simp only [eliminateOpenFiles,mem_map,Option.filter_eq_some_iff] at found
  obtain ⟨file,⟨name,member,rfl⟩,equal,-⟩ := found
  cases equal
  exact member

theorem makeFreeSpaceOnCache_keeps {P : Storage → Prop}
    (deletes : ∀ s path, Deletable path → s.removable path = true → P s → P (s.setFile path none)) (bytesNeeded : Nat) :
    Triple P (makeFreeSpaceOnCache bytesNeeded) (fun _ => P) P := by
  have space (path : Path) : Triple P (freeSpaceForFile path) (fun _ => P) P :=
    triple_ask_bind (fun _ holds => holds) fun answer =>
      triple_pure _ fun _ holds => holds
  have loop (names : List (Option Path)) (all : ∀ path, some path ∈ names → Deletable path) (freeNow : Nat) :
      Triple P (deleteLoop bytesNeeded names freeNow) (fun _ => P) P := by
    induction names generalizing freeNow with
    | nil => exact triple_pure _ fun _ holds => holds
    | cons name names ih =>
      have rest := ih fun path member => all path (mem_cons_of_mem _ member)
      refine triple_ite (fun _ => ?_) fun _ => triple_pure _ fun _ holds => holds
      cases name with
      | none => exact rest freeNow
      | some path =>
        refine triple_bind ?_ fun _ => triple_bind (space _) fun now => rest now
        refine triple_ask_bind (fun _ holds => holds) fun _ =>
          triple_modify fun s holds => ?_
        split
        · rename_i removable
          exact deletes s path (all path mem_cons_self) removable holds
        · exact holds
  have find : Triple P findExpendableFiles
      (fun found s => P s ∧ ∀ names, found = some names → ∀ path, some path ∈ names → Deletable path) P := by
    refine triple_bind (listExpendable_deletable fun _ member => member) fun names =>
      triple_ask_bind (fun _ holds => holds.1) fun answer =>
      triple_pure _ fun s holds => ⟨holds.1,?_⟩
    intro list equal path member
    split at equal
    · obtain rfl := Option.some.inj equal
      exact holds.2 path (eliminateOpenFiles_mem member)
    · cases equal
  refine triple_bind (space _) fun freeNow => triple_ite (fun _ => triple_pure _ fun _ holds => holds) fun _ =>
    triple_bind find fun found => ?_
  cases found with
  | none => exact triple_pure _ fun _ holds => holds.1
  | some names =>
    refine triple_assume fun s holds => triple_pre (B := P) ?_ (by rintro t rfl; exact holds.1)
    refine triple_ite (fun _ => triple_pure _ fun _ holds => holds) fun _ =>
      triple_bind (loop names (holds.2 names rfl) _) fun now => triple_pure _ fun _ holds => holds

end Recovery.FreeCache
