import Recovery.Memory
import Recovery.Tracing

/-!
`dirCreateHierarchy`. The answers of the file system are given, and every call that is made
is noted with its answer.
-/
namespace Recovery.DirUtil
open Memory Tracing Tracing.Traced List

/-- What `stat` says of a path: a directory, something else, `ENOENT`, or another error. -/
inductive Stat where
  | directory
  | other
  | missing
  | failed
  deriving DecidableEq, Repr

inductive DirStatus where
  | DMISSING
  | DDIR
  | DILLEGAL
  deriving DecidableEq, Repr

/-- The calls that are made, with what came of them. `extract` is a whole
    `mzExtractZipEntryToFile` with the bytes that were written, and `T` are the timestamps. -/
inductive Call (T : Type) where
  | stat (path : Bytes) (answer : Stat)
  | mkdir (path : Bytes) (done : Bool)
  | utime (path : Bytes) (timestamp : T) (done : Bool)
  | symlink (target path : Bytes) (done : Bool)
  | creat (path : Bytes) (done : Bool)
  | extract (written : Bytes) (done : Bool)
  | callback (path : Bytes)
  deriving DecidableEq, Repr

/-- The answers to the calls of `dirCreateHierarchy`. -/
structure DirAnswers (T : Type) where
  malloc : Bool
  stat : Bytes → Stat
  mkdir : Bytes → Bool
  utime : Bytes → T → Bool

def slash : UInt8 := 0x2f

section
variable {T E : Type} (answers : DirAnswers T) (timestamp : Option T)

def getPathDirStatus (path : Bytes) : Traced (Call T) E DirStatus := do
  note (.stat path (answers.stat path))
  match answers.stat path with
  | .directory => pure .DDIR
  | .missing => pure .DMISSING
  | .other => pure .DILLEGAL
  | .failed => pure .DILLEGAL

/-- The path up to its last slash. There is no directory component when that is its first
    character. -/
def stripped (path : Bytes) : Option Bytes :=
  let cpath := (path.reverse.dropWhile (· ≠ slash)).reverse
  if cpath.length ≤ 1 then none else some cpath
/-- The paths that are cut off at the ends of the components. -/
def levels (passed : Bytes) : Bytes → List Bytes
  | [] => []
  | c :: cs =>
    if c = slash ∧ passed ≠ [] ∧ passed.getLast? ≠ some slash then passed :: levels (passed ++ [c]) cs
    else levels (passed ++ [c]) cs

def makeLevels : List Bytes → Traced (Call T) E Bool
  | [] => pure true
  | cpath :: rest => do
    match ← getPathDirStatus answers cpath with
    | .DILLEGAL => pure false
    | .DMISSING =>
      note (.mkdir cpath (answers.mkdir cpath))
      if answers.mkdir cpath then
        match timestamp with
        | some t =>
          note (.utime cpath t (answers.utime cpath t))
          if answers.utime cpath t then makeLevels rest else pure false
        | none => makeLevels rest
      else pure false
    | .DDIR => makeLevels rest
/-- True stands for the result 0. -/
def dirCreateHierarchy (path : Bytes) (stripFileName : Bool) : Traced (Call T) E Bool :=
  if path = [] then pure false
  else if answers.malloc then
    match if stripFileName then stripped path else some (path ++ [slash]) with
    | none => pure false
    | some cpath => do
      match ← getPathDirStatus answers cpath with
      | .DDIR => pure true
      | .DILLEGAL => pure false
      | .DMISSING => makeLevels answers timestamp (levels [] cpath)
  else pure false

end

/-! ## What it does -/

section
variable {T E : Type}

def Made (timestamp : Option T) (calls : List (Call T)) (path : Bytes) : Prop :=
  .stat path .directory ∈ calls ∨ (.mkdir path true ∈ calls ∧ ∀ t, timestamp = some t → .utime path t true ∈ calls)
def Hierarchy (timestamp : Option T) (calls : List (Call T)) (cpath : Bytes) : Prop :=
  .stat cpath .directory ∈ calls ∨ ∀ level ∈ levels [] cpath, Made timestamp calls level

theorem Made.mono {timestamp : Option T} {calls more : List (Call T)} {path : Bytes} (made : Made timestamp calls path)
    (kept : calls ⊆ more) : Made timestamp more path :=
  made.imp (fun known => kept known) fun ⟨new,touched⟩ => ⟨kept new,fun t given => kept (touched t given)⟩
theorem Hierarchy.mono {timestamp : Option T} {calls more : List (Call T)} {cpath : Bytes}
    (there : Hierarchy timestamp calls cpath) (kept : calls ⊆ more) : Hierarchy timestamp more cpath :=
  there.imp (fun known => kept known) fun made level member => (made level member).mono kept

variable (answers : DirAnswers T) (timestamp : Option T)

theorem getPathDirStatus_trace (path : Bytes) :
    (getPathDirStatus answers path : Traced (Call T) E DirStatus).trace = [.stat path (answers.stat path)] := by
  unfold getPathDirStatus
  cases answers.stat path <;> rfl
theorem getPathDirStatus_result (path : Bytes) : ∃ status,
    (getPathDirStatus answers path : Traced (Call T) E DirStatus).result = .ok status ∧
      (status = .DDIR → answers.stat path = .directory) := by
  unfold getPathDirStatus
  cases answers.stat path <;> exact ⟨_,rfl,by simp⟩

private theorem makeLevels_spec (paths : List Bytes) : ∃ done,
    (makeLevels answers timestamp paths : Traced (Call T) E Bool).result = .ok done ∧ (done = true →
      ∀ path ∈ paths, Made timestamp (makeLevels answers timestamp paths : Traced (Call T) E Bool).trace path) := by
  induction paths with
  | nil => exact ⟨true,rfl,fun _ _ member => absurd member not_mem_nil⟩
  | cons path rest ih =>
    obtain ⟨done,result,made⟩ := ih
    obtain ⟨status,told,known⟩ := getPathDirStatus_result (E := E) answers path
    have goes {calls : List (Call T)} (first : Made timestamp calls path) (all : done = true)
        (kept : (makeLevels answers timestamp rest : Traced (Call T) E Bool).trace ⊆ calls) :
        ∀ p ∈ path :: rest, Made timestamp calls p := by
      intro p member
      rcases mem_cons.mp member with rfl | later
      · exact first
      · exact (made all p later).mono kept
    unfold makeLevels
    rw [bind_result told,bind_trace told,getPathDirStatus_trace]
    cases status with
    | DILLEGAL => exact ⟨false,rfl,by simp⟩
    | DDIR =>
      refine ⟨done,result,fun all => goes (.inl ?_) all (subset_append_right _ _)⟩
      simp [known rfl]
    | DMISSING =>
      rw [note_bind]
      cases new : answers.mkdir path with
      | false => exact ⟨false,rfl,by simp⟩
      | true =>
        cases timestamp with
        | none =>
          refine ⟨done,result,fun all => goes (.inr ⟨by simp,by simp⟩) all ?_⟩
          exact fun _ member => mem_cons_of_mem _ (mem_cons_of_mem _ member)
        | some t =>
          dsimp only
          rw [note_bind]
          cases touched : answers.utime path t with
          | false => exact ⟨false,rfl,by simp⟩
          | true =>
            refine ⟨done,result,fun all => goes (.inr ⟨by simp,by simp⟩) all ?_⟩
            exact fun _ member => mem_cons_of_mem _ (mem_cons_of_mem _ (mem_cons_of_mem _ member))

theorem dirCreateHierarchy_spec (path : Bytes) (stripFileName : Bool) : ∃ done,
    (dirCreateHierarchy answers timestamp path stripFileName : Traced (Call T) E Bool).result = .ok done ∧
      (done = true → ∃ cpath, (if stripFileName then stripped path else some (path ++ [slash])) = some cpath ∧
        Hierarchy timestamp (dirCreateHierarchy answers timestamp path stripFileName : Traced (Call T) E Bool).trace
          cpath) := by
  unfold dirCreateHierarchy
  split
  · exact ⟨false,rfl,by simp⟩
  split
  · cases (if stripFileName then stripped path else some (path ++ [slash])) with
    | none => exact ⟨false,rfl,by simp⟩
    | some cpath =>
      obtain ⟨status,told,known⟩ := getPathDirStatus_result (E := E) answers cpath
      rw [bind_result told,bind_trace told,getPathDirStatus_trace]
      cases status with
      | DDIR => exact ⟨true,rfl,fun _ => ⟨cpath,rfl,.inl (by simp [known rfl])⟩⟩
      | DILLEGAL => exact ⟨false,rfl,by simp⟩
      | DMISSING =>
        obtain ⟨done,result,made⟩ := makeLevels_spec (E := E) answers timestamp (levels [] cpath)
        refine ⟨done,result,fun all => ⟨cpath,rfl,.inr fun level member => ?_⟩⟩
        exact (made all level member).mono (subset_append_right _ _)
  · exact ⟨false,rfl,by simp⟩

/-- The calls for the directories of a path, which are shorter than it. -/
def ForDirs (length : Nat) : Call T → Prop
  | .stat _ _ => True
  | .mkdir _ _ => True
  | .utime path _ _ => path.length < length
  | _ => False

private theorem length_levels {passed cs level : Bytes} (member : level ∈ levels passed cs) : level.length < passed.length + cs.length := by
  induction cs generalizing passed with
  | nil => cases member
  | cons c cs ih =>
    have later (known : level ∈ levels (passed ++ [c]) cs) : level.length < passed.length + (c :: cs).length := by
      have := ih known
      simp only [length_append,length_cons,length_nil] at this ⊢
      omega
    unfold levels at member
    split at member
    · rcases mem_cons.mp member with rfl | known
      · simp
      · exact later known
    · exact later member
private theorem length_stripped {path cpath : Bytes} (found : stripped path = some cpath) : cpath.length ≤ path.length := by
  unfold stripped at found
  dsimp only at found
  split at found
  · cases found
  · cases found
    rw [length_reverse]
    exact (dropWhile_suffix _).length_le.trans (by rw [length_reverse])

theorem getPathDirStatus_within (length : Nat) (path : Bytes) :
    Within (ForDirs length) (getPathDirStatus answers path : Traced (Call T) E DirStatus) := by
  rw [Within,getPathDirStatus_trace]
  simp [ForDirs]
private theorem makeLevels_within {length : Nat} {paths : List Bytes} (short : ∀ path ∈ paths, path.length < length) :
    Within (ForDirs length) (makeLevels answers timestamp paths : Traced (Call T) E Bool) := by
  induction paths with
  | nil => exact within_pure _ _
  | cons path rest ih =>
    have rest := ih fun p member => short p (mem_cons_of_mem _ member)
    refine within_bind.mpr ⟨getPathDirStatus_within answers length path,fun status _ => ?_⟩
    cases status with
    | DILLEGAL => exact within_pure _ _
    | DDIR => exact rest
    | DMISSING =>
      refine within_bind.mpr ⟨(within_note _ _).mpr trivial,fun _ _ => ?_⟩
      split
      · cases timestamp with
        | none => exact rest
        | some t =>
          refine within_bind.mpr ⟨(within_note _ _).mpr (short path mem_cons_self),fun _ _ => ?_⟩
          split
          · exact rest
          · exact within_pure _ _
      · exact within_pure _ _
theorem dirCreateHierarchy_within (path : Bytes) :
    Within (ForDirs path.length) (dirCreateHierarchy answers timestamp path true : Traced (Call T) E Bool) := by
  unfold dirCreateHierarchy
  split
  · exact within_pure _ _
  split
  · cases found : stripped path with
    | none => exact within_pure _ _
    | some cpath =>
      have := length_stripped found
      refine within_bind.mpr ⟨getPathDirStatus_within answers _ cpath,fun status _ => ?_⟩
      cases status with
      | DDIR => exact within_pure _ _
      | DILLEGAL => exact within_pure _ _
      | DMISSING =>
        refine makeLevels_within answers timestamp fun level member => ?_
        have := length_levels member
        rw [length_nil] at this
        omega
  · exact within_pure _ _

end

end Recovery.DirUtil
