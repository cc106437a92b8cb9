import Mathlib.Data.List.Infix
import Recovery.Memory

/-!
Removing directories with all that is in them: `rmtree_except` of roots.cpp, which keeps one entry of the
directory it is given, and `dirUnlinkHierarchy` of minzip. A path is the list of its components. The calls
follow symbolic links on the way to the last component, wherever these lead.
-/
namespace Recovery.RemoveTree
open Memory List Option

abbrev Path := List Bytes

inductive Kind where
  | file
  | dir
  | link
  deriving DecidableEq, Repr

abbrev Files := Path → Option Kind

inductive Op where
  | opendir
  | lstat
  | rmdir
  | unlink
  | closedir

/-- The kernel: where the directory part of a path leads, which entries of a directory `readdir` returns, and in
    which order, before it returns `NULL` at the end or at an error, which calls work, and whether `rmdir` finds
    a directory empty. -/
structure Kernel where
  real : Files → Path → Path
  readdir : Path → List Bytes
  works : Op → Path → Bool
  empty : Files → Path → Bool
  /-- A path through directories only is followed as it stands. -/
  real_dirs : ∀ files path, (∀ q, q <+: path → files q = some .dir) → real files path = path

variable (kernel : Kernel)

/-- The entries of a directory but one, removed one after the other up to the first failure. -/
def clear (remove : Path → Bytes → Files → Option (Bool × Files)) (path : Path) (except : Option Bytes) :
    List Bytes → Files → Option (Bool × Files)
  | [], files => some (true, files)
  | name :: rest, files =>
    if except = some name then clear remove path except rest files
    else do
      let (done, files) ← remove path name files
      if done then clear remove path except rest files else some (false, files)

/-- `dirUnlinkHierarchy`, and what `rmtree_except` does with an entry; only the former looks at what
    `closedir` returns. Neither notices an error of `readdir`: `errno < 0` is never true. -/
def unlinkEntry (closes : Bool) : Nat → Path → Bytes → Files → Option (Bool × Files)
  | 0, _, _, _ => none
  | fuel + 1, path, name, files =>
    let entry := path ++ [name]
    let place := kernel.real files path ++ [name]
    if kernel.works .lstat entry = false ∨ files place = none then some (false, files)
    else if files place = some .dir then
      if kernel.works .opendir entry then do
        let (done, files) ← clear (unlinkEntry closes fuel) entry none (kernel.readdir entry) files
        if done ∧ (closes → kernel.works .closedir entry) ∧ kernel.works .rmdir entry ∧ kernel.empty files place then
          some (true, Function.update files place none)
        else some (false, files)
      else some (false, files)
    else if kernel.works .unlink entry then some (true, Function.update files place none)
    else some (false, files)

def dirUnlinkHierarchy (fuel : Nat) (path : Path) (name : Bytes) (files : Files) : Option (Bool × Files) :=
  unlinkEntry kernel true fuel path name files
def rmtree_except (fuel : Nat) (path : Path) (except : Option Bytes) (files : Files) : Option (Bool × Files) :=
  if kernel.works .opendir path then clear (unlinkEntry kernel false fuel) path except (kernel.readdir path) files
  else some (false, files)

/-- The part of a file system below a path is a tree, in which `readdir` returns no entry twice and `rmdir`
    takes no directory for empty that has entries left. -/
structure Tree (files : Files) (path : Path) : Prop where
  leaf : ∀ q n, path <+: q → files q ≠ some .dir → files (q ++ [n]) = none
  nodup : ∀ q, (kernel.readdir q).Nodup
  empty : ∀ after q, path <+: q → (∀ n, after (q ++ [n]) = files (q ++ [n]) ∨ after (q ++ [n]) = none) →
    kernel.empty after q = true → ∀ n, after (q ++ [n]) = none
/-- All directories on the way to a path, and the path, are directories. -/
def Dirs (files : Files) (path : Path) : Prop := ∀ q, q <+: path → files q = some .dir
/-- Some paths are gone, and nothing else has changed. -/
def Gone (paths : Path → Prop) (files after : Files) : Prop :=
  (∀ q, paths q → after q = none) ∧ ∀ q, ¬ paths q → after q = files q
/-- What the removal of an entry has to do. -/
def Removes (remove : Path → Bytes → Files → Option (Bool × Files)) : Prop :=
  ∀ {path name files after}, Dirs files path → Tree kernel files (path ++ [name]) →
    remove path name files = some (true, after) → Gone (path ++ [name] <+: ·) files after

variable {kernel} {files middle after : Files} {path q : Path} {name other : Bytes} {paths more : Path → Prop}

theorem gone_trans (first : Gone paths files middle) (second : Gone more middle after) :
    Gone (fun q => paths q ∨ more q) files after := by
  refine ⟨fun q gone => ?_,fun q kept => ?_⟩
  · by_cases now : more q
    · exact second.1 q now
    · rw [second.2 q now,first.1 q (gone.resolve_right now)]
  · rw [second.2 q fun now => kept (.inr now),first.2 q fun now => kept (.inl now)]
theorem gone_congr (gone : Gone paths files after) (within : ∀ q, paths q → more q)
    (missing : ∀ q, more q → ¬ paths q → files q = none) : Gone more files after := by
  refine ⟨fun q now => ?_,fun q kept => gone.2 q fun now => kept (within q now)⟩
  by_cases before : paths q
  · exact gone.1 q before
  · rw [gone.2 q before,missing q now before]
theorem gone_update (files : Files) (path : Path) : Gone (· = path) files (Function.update files path none) :=
  ⟨fun _ same => by rw [same,Function.update_self],fun _ other => Function.update_of_ne other ..⟩

theorem under_entry (first : path ++ [name] <+: q) (second : path ++ [other] <+: q) : name = other := by
  have same := prefix_of_prefix_length_le first second (by simp)
  simpa using same.eq_of_length (by simp)
theorem not_under (short : q <+: path) : ¬ path ++ [name] <+: q := by
  intro long
  have := (long.trans short).length_le
  simp at this

theorem dirs_entry (dirs : Dirs files path) (dir : files (path ++ [name]) = some .dir) : Dirs files (path ++ [name]) := by
  intro q short
  rcases prefix_concat_iff.mp short with rfl | short
  · exact dir
  · exact dirs q short

theorem Tree.part (tree : Tree kernel files path) (n : Bytes) : Tree kernel files (path ++ [n]) :=
  ⟨fun q m below => tree.leaf q m ((prefix_append _ _).trans below),tree.nodup,
    fun after q below => tree.empty after q ((prefix_append _ _).trans below)⟩
theorem Tree.congr (tree : Tree kernel files path) (same : ∀ q, path <+: q → after q = files q) :
    Tree kernel after path := by
  refine ⟨fun q n below => ?_,tree.nodup,fun later q below left => ?_⟩
  · rw [same q below,same _ (below.trans (prefix_append q _))]
    exact tree.leaf q n below
  · refine tree.empty later q below fun n => ?_
    rw [← same _ (below.trans (prefix_append q _))]
    exact left n
theorem Tree.missing (tree : Tree kernel files path) (missing : files path = none) (below : path <+: q) :
    files q = none := by
  obtain ⟨rest,rfl⟩ := below
  induction rest using reverseRecOn with
  | nil => rwa [append_nil]
  | append_singleton rest n ih =>
    rw [← append_assoc]
    exact tree.leaf _ n (prefix_append _ _) (by rw [ih]; nofun)
/-- Below a path there is nothing outside of some entries if the path has no others. -/
theorem Tree.outside (tree : Tree kernel files path) (below : path <+: q) (deeper : q ≠ path) (names : Bytes → Prop)
    (others : ∀ n, ¬ names n → files (path ++ [n]) = none) (out : ∀ n, names n → ¬ path ++ [n] <+: q) : files q = none := by
  obtain ⟨_ | ⟨n,rest⟩,rfl⟩ := below
  · simp at deeper
  have under : path ++ [n] <+: path ++ n :: rest := ⟨rest,by simp⟩
  exact (tree.part n).missing (others n fun listed => out n listed under) under

theorem clear_spec {remove : Path → Bytes → Files → Option (Bool × Files)} (removes : Removes kernel remove)
    {except : Option Bytes} {names : List Bytes} (nodup : names.Nodup) (dirs : Dirs files path)
    (trees : ∀ n ∈ names, Tree kernel files (path ++ [n]))
    (done : clear remove path except names files = some (true, after)) :
    Gone (fun q => ∃ n ∈ names, except ≠ some n ∧ path ++ [n] <+: q) files after := by
  induction names generalizing files with
  | nil =>
    cases done
    exact ⟨by simp,fun _ _ => rfl⟩
  | cons name rest ih =>
    obtain ⟨new,nodup⟩ := nodup_cons.mp nodup
    rw [clear] at done
    split at done
    · rename_i kept
      have later := ih nodup dirs (fun n member => trees n (mem_cons_of_mem _ member)) done
      simpa [kept] using later
    rename_i other
    obtain ⟨⟨ok,middle⟩,removed,done⟩ := bind_eq_some_iff.mp done
    cases ok with
    | false => simp at done
    | true =>
      have gone := removes dirs (trees name mem_cons_self) removed
      have later := ih nodup (fun q short => by rw [gone.2 q (not_under short),dirs q short])
        (fun n member => (trees n (mem_cons_of_mem _ member)).congr fun q below => ?_) done
      · simpa [other] using gone_trans gone later
      · refine gone.2 q fun here => ?_
        obtain rfl := under_entry here below
        exact new member

theorem unlinkEntry_removes (closes : Bool) (fuel : Nat) : Removes kernel (unlinkEntry kernel closes fuel) := by
  induction fuel with
  | zero => exact fun _ _ done => nomatch done
  | succ fuel ih =>
    intro path name files after dirs tree done
    rw [unlinkEntry,kernel.real_dirs files path dirs] at done
    split at done
    · simp at done
    split at done
    · rename_i dir
      split at done
      · obtain ⟨⟨ok,middle⟩,listed,done⟩ := bind_eq_some_iff.mp done
        dsimp only at done
        split at done
        · rename_i fine
          have gone := clear_spec ih (tree.nodup _) (dirs_entry dirs dir) (fun n _ => tree.part n) (fine.1 ▸ listed)
          obtain rfl := (Prod.mk.inj (some.inj done)).2
          -- `rmdir` fails if `readdir` has missed an entry
          have others (n : Bytes) (missed : n ∉ kernel.readdir (path ++ [name])) : files (path ++ [name] ++ [n]) = none := by
            have left := tree.empty middle _ prefix_rfl (fun m => ?_) fine.2.2.2 n
            · rw [← left,gone.2]
              rintro ⟨m,member,_,under⟩
              exact missed (under_entry under prefix_rfl ▸ member)
            · by_cases member : m ∈ kernel.readdir (path ++ [name])
              · exact .inr (gone.1 _ ⟨m,member,nofun,prefix_rfl⟩)
              · refine .inl (gone.2 _ ?_)
                rintro ⟨k,other,_,under⟩
                exact member (under_entry under prefix_rfl ▸ other)
          refine gone_congr (gone_trans gone (gone_update middle _)) ?_ fun q below kept => ?_
          · rintro q (⟨n,_,_,under⟩ | rfl)
            · exact (prefix_append _ _).trans under
            · exact prefix_rfl
          · exact tree.outside below (fun same => kept (.inr same)) _ others fun n listed under =>
              kept (.inl ⟨n,listed,nofun,under⟩)
        · simp at done
      · simp at done
    · rename_i plain
      split at done
      · obtain rfl := (Prod.mk.inj (some.inj done)).2
        refine gone_congr (gone_update files _) ?_ fun q below other =>
          tree.outside below other (fun _ => False) (fun n _ => tree.leaf _ n prefix_rfl plain) nofun
        rintro q rfl
        exact prefix_rfl
      · simp at done

/-- When `rmtree_except` returns 0, all that was below the path is gone, but for the entry that it
    keeps, and nothing else has changed, exactly if `readdir` returned all the other entries of the path.
    `dirUnlinkHierarchy`, which removes the path as well, never returns 0 otherwise. -/
theorem removal_exact_iff (kernel : Kernel) (files after : Files) (path : Path) (dirs : Dirs files path) (fuel : Nat) :
    (∀ except, Tree kernel files path → rmtree_except kernel fuel path except files = some (true, after) →
      (Gone (fun q => path <+: q ∧ q ≠ path ∧ ∀ e, except = some e → ¬ path ++ [e] <+: q) files after ↔
        ∀ n, files (path ++ [n]) ≠ none → except ≠ some n → n ∈ kernel.readdir path)) ∧
    ∀ name, Tree kernel files (path ++ [name]) → dirUnlinkHierarchy kernel fuel path name files = some (true, after) →
      Gone (path ++ [name] <+: ·) files after := by
  refine ⟨fun except tree done => ?_, fun name tree done => unlinkEntry_removes true fuel dirs tree done⟩
  rw [rmtree_except] at done
  split at done
  · have gone := clear_spec (unlinkEntry_removes false fuel) (tree.nodup path) dirs (fun n _ => tree.part n) done
    constructor
    · intro all n there other
      by_contra missed
      refine there ((gone.2 _ ?_).symm.trans (all.1 (path ++ [n]) ⟨prefix_append _ _, by simp, ?_⟩))
      · rintro ⟨m, member, _, under⟩
        exact missed (under_entry under prefix_rfl ▸ member)
      · rintro e rfl under
        exact other (congrArg some (under_entry under prefix_rfl))
    · intro lists
      refine gone_congr gone ?_ fun q ⟨below, deeper, kept⟩ out => ?_
      · rintro q ⟨n, _, other, under⟩
        refine ⟨(prefix_append _ _).trans under, ?_, ?_⟩
        · rintro rfl
          exact not_under prefix_rfl under
        · rintro e rfl keeps
          exact other (congrArg some (under_entry keeps under))
      · refine tree.outside below deeper (fun n => n ∈ kernel.readdir path ∨ except = some n) (fun n others => ?_) ?_
        · obtain ⟨missed, other⟩ := not_or.mp others
          by_contra there
          exact missed (lists n there other)
        · rintro n (listed | same) under
          · exact out ⟨n, listed, fun same => kept n same under, under⟩
          · exact kept n same under
  · simp at done

/-- A directory with a directory, an entry to be kept and a link, and a file beside it. -/
def someFiles : Files := fun q =>
  if q = [] ∨ q = [[1]] ∨ q = [[1], [2]] then some .dir
  else if q = [[1], [2], [3]] ∨ q = [[1], [4]] ∨ q = [[6]] then some .file
  else if q = [[1], [5]] then some .link else none
/-- Its kernel, which returns some entries of the directory. -/
def someKernel (entries : List Bytes) : Kernel where
  real _ path := path
  readdir q := if q = [[1]] then entries else if q = [[1], [2]] then [[3]] else []
  works _ _ := true
  empty files q := files (q ++ [[2]]) = none ∧ files (q ++ [[3]]) = none ∧ files (q ++ [[4]]) = none ∧
    files (q ++ [[5]]) = none
  real_dirs _ _ _ := rfl
theorem someKernel_tree {entries : List Bytes} (nodup : entries.Nodup) : Tree (someKernel entries) someFiles [[1]] := by
  refine ⟨fun q n below plain => ?_,fun q => ?_,fun after q below left found n => ?_⟩
  · by_contra there
    obtain ⟨rest,rfl⟩ := below
    rcases rest with _ | ⟨m,_ | ⟨k,rest⟩⟩ <;> simp_all [someFiles]
  · simp only [someKernel]
    split_ifs <;> simp [nodup]
  · obtain ⟨rest,rfl⟩ := below
    have := left n
    rcases rest with _ | ⟨m,_ | ⟨k,rest⟩⟩ <;> simp_all [someFiles,someKernel] <;> grind
theorem someFiles_dirs : Dirs someFiles [[1]] := by
  intro q short
  obtain ⟨rest,split⟩ := short
  rcases q with _ | ⟨a,_ | ⟨b,q⟩⟩ <;> simp_all [someFiles]

theorem someFiles_removed : ∃ after,
    rmtree_except (someKernel [[2], [4], [5]]) 2 [[1]] (some [4]) someFiles = some (true, after) ∧
    after [[1], [2], [3]] = none ∧ after [[1], [2]] = none ∧ after [[1], [5]] = none ∧
    after [[1], [4]] = some .file ∧ after [[6]] = some .file := by
  obtain ⟨after, removed⟩ : ∃ after,
      rmtree_except (someKernel [[2], [4], [5]]) 2 [[1]] (some [4]) someFiles = some (true, after) := ⟨_, rfl⟩
  have gone := ((removal_exact_iff _ _ after _ someFiles_dirs 2).1 (some [4]) (someKernel_tree (by decide)) removed).mpr
    fun n there _ => by
      simp only [someKernel, if_true]
      by_contra missed
      exact there (by simp_all [someFiles])
  have below (q : Path) (under : [[1]] <+: q) (deeper : q ≠ [[1]]) (out : ¬ [[1], [4]] <+: q) : after q = none :=
    gone.1 q ⟨under, deeper, fun e same => by rwa [← some.inj same]⟩
  refine ⟨after, removed, below _ (by decide) (by decide) (by decide), below _ (by decide) (by decide) (by decide),
    below _ (by decide) (by decide) (by decide), gone.2 [[1], [4]] fun kept => kept.2.2 _ rfl prefix_rfl, gone.2 [[6]] ?_⟩
  exact fun under => absurd under.1 (by decide)
theorem someFiles_left : Tree (someKernel []) someFiles [[1]] ∧ Dirs someFiles [[1]] ∧
    rmtree_except (someKernel []) 2 [[1]] none someFiles = some (true, someFiles) ∧ someFiles [[1], [5]] ≠ none :=
  ⟨someKernel_tree (by decide), someFiles_dirs, rfl, by decide⟩

/-! ## Failures -/

/-- What the removal of an entry may do, also when it fails. -/
def Contained (remove : Path → Bytes → Files → Option (Bool × Files)) : Prop :=
  ∀ {path name files done after}, Dirs files path → remove path name files = some (done, after) →
    ∀ q, after q ≠ files q → after q = none ∧ path ++ [name] <+: q

theorem clear_contained {remove : Path → Bytes → Files → Option (Bool × Files)} (contained : Contained remove)
    {except : Option Bytes} {names : List Bytes} {done : Bool} (dirs : Dirs files path)
    (run : clear remove path except names files = some (done, after)) (changed : after q ≠ files q) :
    after q = none ∧ ∃ n, except ≠ some n ∧ path ++ [n] <+: q := by
  induction names generalizing files with
  | nil =>
    cases run
    exact absurd rfl changed
  | cons name rest ih =>
    rw [clear] at run
    split at run
    · exact ih dirs run changed
    rename_i other
    obtain ⟨⟨ok,middle⟩,removed,run⟩ := bind_eq_some_iff.mp run
    have first := contained dirs removed
    by_cases same : after q = middle q
    · obtain ⟨gone,under⟩ := first q (same ▸ changed)
      exact ⟨same.trans gone,name,other,under⟩
    cases ok with
    | false =>
      cases run
      exact absurd rfl same
    | true =>
      -- the directories on the way are not below the entry
      refine ih (fun r short => ?_) run same
      rw [← dirs r short]
      by_contra differs
      exact not_under short (first r differs).2

theorem unlinkEntry_contained (closes : Bool) (fuel : Nat) : Contained (unlinkEntry kernel closes fuel) := by
  induction fuel with
  | zero => exact fun _ run => nomatch run
  | succ fuel ih =>
    intro path name files done after dirs run q changed
    have update {before : Files} (within : before q ≠ files q → before q = none ∧ path ++ [name] <+: q)
        (moved : Function.update before (path ++ [name]) none q ≠ files q) :
        Function.update before (path ++ [name]) none q = none ∧ path ++ [name] <+: q := by
      by_cases here : q = path ++ [name]
      · rw [here,Function.update_self]
        exact ⟨rfl,prefix_rfl⟩
      · rw [Function.update_of_ne here] at moved ⊢
        exact within moved
    rw [unlinkEntry,kernel.real_dirs files path dirs] at run
    split_ifs at run with absent dir opened works
    · cases run
      exact absurd rfl changed
    · obtain ⟨⟨ok,middle⟩,listed,run⟩ := bind_eq_some_iff.mp run
      have within (moved : middle q ≠ files q) : middle q = none ∧ path ++ [name] <+: q := by
        obtain ⟨gone,n,_,under⟩ := clear_contained ih (dirs_entry dirs dir) listed moved
        exact ⟨gone,(prefix_append _ _).trans under⟩
      dsimp only at run
      split at run
      all_goals cases run
      · exact update within changed
      · exact within changed
    all_goals cases run
    · exact absurd rfl changed
    · exact update (fun moved => absurd rfl moved) changed
    · exact absurd rfl changed

/-- Whichever calls fail, all that a removal changes is that things below the path are gone, never the
    path itself or the entry to be kept. -/
theorem removal_contained (kernel : Kernel) (files after : Files) (path : Path) (dirs : Dirs files path) (fuel : Nat)
    (done : Bool) (q : Path) (changed : after q ≠ files q) :
    (∀ except, rmtree_except kernel fuel path except files = some (done, after) →
      after q = none ∧ path <+: q ∧ q ≠ path ∧ ∀ e, except = some e → ¬ path ++ [e] <+: q) ∧
    ∀ name, dirUnlinkHierarchy kernel fuel path name files = some (done, after) →
      after q = none ∧ path ++ [name] <+: q := by
  refine ⟨fun except run => ?_,fun name run => unlinkEntry_contained true fuel dirs run q changed⟩
  rw [rmtree_except] at run
  split at run
  · obtain ⟨gone,n,other,under⟩ := clear_contained (unlinkEntry_contained false fuel) dirs run changed
    refine ⟨gone,(prefix_append _ _).trans under,?_,?_⟩
    · rintro rfl
      exact not_under prefix_rfl under
    · rintro e rfl keeps
      exact other (congrArg some (under_entry keeps under))
  · cases run
    exact absurd rfl changed

def twoLinks : Files := fun q => if q = [] then some .dir else if q = [[1]] ∨ q = [[2]] then some .link else none
/-- A kernel that knows nothing of the second link. -/
def partKernel : Kernel where
  real _ path := path
  readdir q := if q = [] then [[1], [2]] else []
  works _ path := path ≠ [[2]]
  empty _ _ := false
  real_dirs _ _ _ := rfl
theorem twoLinks_contained :
    rmtree_except partKernel 1 [] none twoLinks = some (false, Function.update twoLinks [[1]] none) ∧
    ∀ q, Function.update twoLinks [[1]] none q ≠ twoLinks q → Function.update twoLinks [[1]] none q = none ∧ q ≠ [] := by
  have dirs : Dirs twoLinks [] := fun q short => by rw [prefix_nil.mp short]; rfl
  have run : rmtree_except partKernel 1 [] none twoLinks = some (false, Function.update twoLinks [[1]] none) := by
    simp [rmtree_except,partKernel,clear,unlinkEntry,twoLinks]
  refine ⟨run,fun q changed => ?_⟩
  obtain ⟨gone,_,below,_⟩ := (removal_contained partKernel twoLinks _ [] dirs 1 false q changed).1 none run
  exact ⟨gone,below⟩

end Recovery.RemoveTree
