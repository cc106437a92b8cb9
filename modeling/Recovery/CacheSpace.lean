import Recovery.FreeCache
import Mathlib.Data.List.ReduceOption

/-!
Room on `/cache`: which files `MakeFreeSpaceOnCache` removes, and whether there is room when it says
so.
-/
namespace Recovery.CacheSpace
open Memory Program Program.Prog Storage FreeCache List

/-- What the calls meet: what `statfs` tells after each number of removals, what the
    directories and `/proc` list, and how each removal goes. -/
structure Env where
  report : Nat → Answer
  listing : Path → Answer
  proc : Answer
  unlinked : Nat → Answer

namespace Env
variable (env : Env)

/-- The answers to some rounds of the loop that deletes, after as many as there were. -/
def rounds : Nat → Nat → List Answer
  | _, 0 => []
  | i, k + 1 => env.unlinked i :: env.report (i + 1) :: rounds (i + 1) k
def answers (k : Nat) : List Answer :=
  env.report 0 :: env.listing "/cache".toList :: env.listing "/cache/recovery/otatest".toList :: env.proc ::
    env.rounds 0 k

/-- The free bytes that `FreeSpaceForFile` tells after some removals. -/
def reported (i : Nat) : Nat :=
  if (env.report i).ok then unsigned 64 ((env.report i).blockSize * (env.report i).count) else unsigned 64 (-1)

def listed (s : Storage) (dir : Path) : List Path :=
  if (env.listing dir).ok then expendableIn s dir (env.listing dir).names else []
def names (s : Storage) : List (Option Path) :=
  eliminateOpenFiles env.proc.links (((deletableDirs.map (env.listed s)).flatten).map some)
/-- The files that can be removed, in the order they would be. -/
def candidates (s : Storage) : List Path := if env.proc.ok then (env.names s).reduceOption else []
/-- How many of them are removed before enough is told to be free. -/
def removals (s : Storage) (bytesNeeded : Nat) : Nat :=
  (List.range (env.candidates s).length).findIdx fun i => bytesNeeded ≤ env.reported i

def Open (path : Path) : Prop :=
  ∃ process ∈ env.proc.links, process.1.all Char.isDigit = true ∧ ∃ files, process.2 = some files ∧ path ∈ files

end Env

def remove (s : Storage) (path : Path) : Storage := if s.removable path then s.setFile path none else s

/-! ## Runs -/

variable {env : Env} {bytesNeeded : Nat}

theorem deleteLoop_some (path : Path) (names : List (Option Path)) (s : Storage) {i : Nat}
    (little : env.reported i < bytesNeeded) (answers : List Answer) :
    deleteLoop bytesNeeded (some path :: names) (env.reported i) s answers =
      (unlink path >>= fun _ => freeSpaceForFile "/cache".toList >>= deleteLoop bytesNeeded names) s answers := by
  rw [deleteLoop,if_pos little]
theorem deleteLoop_none (names : List (Option Path)) (s : Storage) {i : Nat} (little : env.reported i < bytesNeeded)
    (answers : List Answer) : deleteLoop bytesNeeded (none :: names) (env.reported i) s answers =
      deleteLoop bytesNeeded names (env.reported i) s answers := by
  rw [deleteLoop,if_pos little]
theorem deleteLoop_stops (names : List (Option Path)) (s : Storage) {i : Nat} (enough : bytesNeeded ≤ env.reported i)
    (answers : List Answer) :
    deleteLoop bytesNeeded names (env.reported i) s answers = ⟨some (env.reported i),s,answers⟩ := by
  cases names with
  | nil => rfl
  | cons name names =>
    unfold deleteLoop
    rw [if_neg (by omega),pure_run]
private theorem deleteLoop_spec (bytesNeeded : Nat) (names : List (Option Path)) (s : Storage) {i k : Nat}
    {answers : List Answer} (from_env : answers <+: env.rounds i k) : ∃ m ≤ names.reduceOption.length,
      (deleteLoop bytesNeeded names (env.reported i) s answers).state = (names.reduceOption.take m).foldl remove s ∧
      (∀ j < m, env.reported (i + j) < bytesNeeded) ∧
      ∀ freeNow, (deleteLoop bytesNeeded names (env.reported i) s answers).value = some freeNow →
        freeNow = env.reported (i + m) ∧ (m = names.reduceOption.length ∨ bytesNeeded ≤ freeNow) := by
  induction names generalizing s i k answers with
  | nil => exact ⟨0,le_refl 0,rfl,by simp,fun freeNow value => ⟨(Option.some.inj value).symm,.inl rfl⟩⟩
  | cons name names ih =>
    by_cases little : env.reported i < bytesNeeded
    · cases name with
      | none =>
        rw [deleteLoop_none names s little]
        exact ih s from_env
      | some path =>
        rw [deleteLoop_some path names s little]
        have first : ∀ j < 1, env.reported (i + j) < bytesNeeded := by
          intro j one
          simpa [Nat.lt_one_iff.mp one] using little
        rw [reduceOption_cons_of_some,length_cons]
        -- the run is cut off before `unlink`, behind it, or not in this round
        rcases answers with _ | ⟨unlinked,_ | ⟨told,answers⟩⟩
        · exact ⟨0,Nat.zero_le _,rfl,by simp,fun freeNow value => by cases value⟩
        · exact ⟨1,by omega,rfl,first,fun freeNow value => by cases value⟩
        cases k with
        | zero => exact absurd from_env (by simp [Env.rounds])
        | succ k =>
          rw [Env.rounds,cons_prefix_cons,cons_prefix_cons] at from_env
          obtain ⟨rfl,rfl,rest⟩ := from_env
          obtain ⟨m,few,state,before,value⟩ := ih (remove s path) rest
          refine ⟨m + 1,by omega,state,fun j less => ?_,fun freeNow returned => ?_⟩
          · cases j with
            | zero => exact little
            | succ j =>
              rw [show i + (j + 1) = i + 1 + j by omega]
              exact before j (by omega)
          · obtain ⟨same,enough⟩ := value freeNow returned
            rw [show i + (m + 1) = i + 1 + m by omega]
            exact ⟨same,enough.imp (by omega) id⟩
    · have enough : bytesNeeded ≤ env.reported i := by omega
      rw [deleteLoop_stops _ s enough]
      refine ⟨0,Nat.zero_le _,rfl,by simp,fun freeNow value => ?_⟩
      obtain rfl := Option.some.inj value
      exact ⟨rfl,.inr enough⟩

theorem findExpendableFiles_run (env : Env) (s : Storage) (rest : List Answer) :
    findExpendableFiles s (env.listing "/cache".toList :: env.listing "/cache/recovery/otatest".toList :: env.proc ::
      rest) = ⟨some (if env.proc.ok then some (env.names s) else none),s,rest⟩ := rfl
private theorem findExpendableFiles_spec (s : Storage) {k : Nat} {answers : List Answer}
    (from_env : answers <+: env.listing "/cache".toList :: env.listing "/cache/recovery/otatest".toList :: env.proc ::
      env.rounds 0 k) :
    ((findExpendableFiles s answers).value = none ∧ (findExpendableFiles s answers).state = s) ∨
      ∃ rest, rest <+: env.rounds 0 k ∧
        findExpendableFiles s answers = ⟨some (if env.proc.ok then some (env.names s) else none),s,rest⟩ := by
  rcases answers with _ | ⟨first,_ | ⟨second,_ | ⟨third,rest⟩⟩⟩
  · exact .inl ⟨rfl,rfl⟩
  · exact .inl ⟨rfl,rfl⟩
  · exact .inl ⟨rfl,rfl⟩
  · rw [cons_prefix_cons,cons_prefix_cons,cons_prefix_cons] at from_env
    obtain ⟨rfl,rfl,rfl,behind⟩ := from_env
    exact .inr ⟨rest,behind,findExpendableFiles_run env s rest⟩

theorem removals_eq {s : Storage} {m : Nat} (few : m ≤ (env.candidates s).length)
    (before : ∀ j < m, env.reported j < bytesNeeded)
    (stops : m = (env.candidates s).length ∨ bytesNeeded ≤ env.reported m) : env.removals s bytesNeeded = m := by
  rcases Nat.lt_or_eq_of_le few with less | all
  · refine (findIdx_eq (by simpa using less)).mpr ⟨?_,fun j earlier => ?_⟩
    · simpa using stops.resolve_left (by omega)
    · simpa using before j earlier
  · subst all
    have whole := length_range (n := (env.candidates s).length)
    refine (findIdx_eq_length.mpr fun j member => ?_).trans whole
    simpa using before j (mem_range.mp member)

/-! The call, by what it learns. -/

section
variable {s : Storage} {answers rest : List Answer}

theorem make_told :
    freeSpaceForFile "/cache".toList s (env.report 0 :: answers) = ⟨some (env.reported 0),s,answers⟩ := rfl
theorem make_enough (enough : bytesNeeded ≤ env.reported 0) :
    makeFreeSpaceOnCache bytesNeeded s (env.report 0 :: answers) = ⟨some 0,s,answers⟩ := by
  rw [makeFreeSpaceOnCache,bind_run,make_told,next_some rfl,if_pos enough,pure_run]
variable (little : env.reported 0 < bytesNeeded)
include little

private theorem make_cut (cut : (findExpendableFiles s answers).value = none) :
    makeFreeSpaceOnCache bytesNeeded s (env.report 0 :: answers) =
      ⟨none,(findExpendableFiles s answers).state,(findExpendableFiles s answers).rest⟩ := by
  rw [makeFreeSpaceOnCache,bind_run,make_told,next_some rfl,if_neg (by omega),bind_run,next_none cut]
theorem make_unlisted (found : findExpendableFiles s answers = ⟨some none,s,rest⟩) :
    makeFreeSpaceOnCache bytesNeeded s (env.report 0 :: answers) = ⟨some (-1),s,rest⟩ := by
  rw [makeFreeSpaceOnCache,bind_run,make_told,next_some rfl,if_neg (by omega),bind_run,found,next_some rfl]
  rfl
theorem make_nothing (found : findExpendableFiles s answers = ⟨some (some []),s,rest⟩) :
    makeFreeSpaceOnCache bytesNeeded s (env.report 0 :: answers) = ⟨some (-1),s,rest⟩ := by
  rw [makeFreeSpaceOnCache,bind_run,make_told,next_some rfl,if_neg (by omega),bind_run,found,next_some rfl]
  rfl
theorem make_loop {names : List (Option Path)} (found : findExpendableFiles s answers = ⟨some (some names),s,rest⟩)
    (something : names ≠ []) : makeFreeSpaceOnCache bytesNeeded s (env.report 0 :: answers) =
      next (deleteLoop bytesNeeded names (env.reported 0) s rest)
        fun freeNow => pure (if freeNow ≥ bytesNeeded then 0 else -1) := by
  rw [makeFreeSpaceOnCache,bind_run,make_told,next_some rfl,if_neg (by omega),bind_run,found,next_some rfl]
  dsimp only
  rw [if_neg something,bind_run]

end

/-- A run, cut off anywhere: it removes the first candidates, each while too little was told to
    be free, and what it returns goes by what was told last. -/
theorem makeFreeSpaceOnCache_spec (bytesNeeded : Nat) (s : Storage) {k : Nat} {answers : List Answer}
    (from_env : answers <+: env.answers k) :
    ∃ m ≤ (env.candidates s).length,
      (makeFreeSpaceOnCache bytesNeeded s answers).state = ((env.candidates s).take m).foldl remove s ∧
      (∀ j < m, env.reported j < bytesNeeded) ∧
      ∀ value, (makeFreeSpaceOnCache bytesNeeded s answers).value = some value →
        m = env.removals s bytesNeeded ∧ value = if bytesNeeded ≤ env.reported m then 0 else -1 := by
  rcases answers with _ | ⟨told,answers⟩
  · exact ⟨0,Nat.zero_le _,rfl,by simp,fun value returned => by cases returned⟩
  obtain ⟨rfl,asked⟩ := cons_prefix_cons.mp from_env
  by_cases enough : bytesNeeded ≤ env.reported 0
  · rw [make_enough enough]
    refine ⟨0,Nat.zero_le _,rfl,by simp,fun value returned => ⟨?_,?_⟩⟩
    · exact (removals_eq (Nat.zero_le _) (by simp) (.inr enough)).symm
    · rw [if_pos enough]
      exact (Option.some.inj returned).symm
  have little : env.reported 0 < bytesNeeded := by omega
  rcases findExpendableFiles_spec s asked with ⟨cut,same⟩ | ⟨rest,behind,found⟩
  · rw [make_cut little cut,same]
    exact ⟨0,Nat.zero_le _,rfl,by simp,fun value returned => by cases returned⟩
  by_cases listed : env.proc.ok = true
  · rw [if_pos listed] at found
    have candidates : env.candidates s = (env.names s).reduceOption := if_pos listed
    by_cases something : env.names s = []
    · rw [something] at found candidates
      rw [make_nothing little found,candidates]
      refine ⟨0,le_refl _,rfl,by simp,fun value returned => ⟨?_,?_⟩⟩
      · exact (removals_eq (Nat.zero_le _) (by simp) (.inl (by rw [candidates]; rfl))).symm
      · rw [if_neg enough]
        exact (Option.some.inj returned).symm
    · rw [make_loop little found something,candidates]
      obtain ⟨m,few,state,before,returns⟩ := deleteLoop_spec bytesNeeded (env.names s) s behind
      simp only [Nat.zero_add] at before returns
      cases told : (deleteLoop bytesNeeded (env.names s) (env.reported 0) s rest).value with
      | none =>
        rw [next_none told]
        exact ⟨m,few,state,before,fun value returned => by cases returned⟩
      | some freeNow =>
        rw [next_some told]
        obtain ⟨rfl,last⟩ := returns freeNow told
        refine ⟨m,few,state,before,fun value returned => ⟨?_,(Option.some.inj returned).symm⟩⟩
        rw [← candidates] at few last
        exact (removals_eq few before last).symm
  · rw [if_neg listed] at found
    have candidates : env.candidates s = [] := if_neg listed
    rw [make_unlisted little found,candidates]
    refine ⟨0,le_refl _,rfl,by simp,fun value returned => ⟨?_,?_⟩⟩
    · exact (removals_eq (Nat.zero_le _) (by simp) (.inl (by rw [candidates]; rfl))).symm
    · rw [if_neg enough]
      exact (Option.some.inj returned).symm

/-! ## What is removed -/

structure Expendable (env : Env) (s : Storage) (path : Path) : Prop where
  listed : ∃ dir ∈ deletableDirs, (env.listing dir).ok = true ∧
    ∃ name ∈ (env.listing dir).names, path = dir ++ ['/'] ++ name
  regular : isRegular s path = true
  unsaved : path ≠ cacheTempSource
  unopened : ¬ env.Open path

private theorem eliminateOpenFiles_unopened {links : List (Path × Option (List Path))} {files : List (Option Path)}
    {path : Path} (found : some path ∈ eliminateOpenFiles links files) (cache : "/cache/".toList.isPrefixOf path = true)
    {process : Path × Option (List Path)} (runs : process ∈ links) (numeric : process.1.all Char.isDigit = true)
    {opened : List Path} (lists : process.2 = some opened) : path ∉ opened := by
  intro member
  simp only [eliminateOpenFiles,mem_map,Option.filter_eq_some_iff] at found
  obtain ⟨file,-,-,unopened⟩ := found
  have struck : ∀ files name, (name,some files) ∈ links → (∀ c ∈ name, c.isDigit = true) → path ∈ files →
      ¬ "/cache/".toList <+: path := by simpa using unopened
  obtain ⟨name,listing⟩ := process
  obtain rfl : listing = some opened := lists
  exact struck opened name runs (all_eq_true.mp numeric) member (List.isPrefixOf_iff_prefix.mp cache)

private theorem listed_on_cache {dir name : Path} (member : dir ∈ deletableDirs) :
    "/cache/".toList.isPrefixOf (dir ++ ['/'] ++ name) = true := by
  simp only [deletableDirs,mem_cons,not_mem_nil,or_false] at member
  rcases member with rfl | rfl <;> rfl
private theorem candidates_expendable {s : Storage} {path : Path} (member : path ∈ env.candidates s) :
    Expendable env s path := by
  unfold Env.candidates at member
  split at member
  · have named : some path ∈ env.names s := reduceOption_mem_iff.mp member
    have found := eliminateOpenFiles_mem named
    obtain ⟨paths,⟨dir,deletable,rfl⟩,here⟩ :
        ∃ paths, (∃ dir ∈ deletableDirs, env.listed s dir = paths) ∧ path ∈ paths := by
      simpa using found
    unfold Env.listed at here
    split at here
    · rename_i ok
      simp only [expendableIn,mem_filter,mem_map,Bool.and_eq_true,decide_eq_true_eq] at here
      obtain ⟨⟨name,lists,rfl⟩,unsaved,regular⟩ := here
      refine ⟨⟨dir,deletable,ok,name,lists,rfl⟩,regular,unsaved,?_⟩
      rintro ⟨process,runs,numeric,opened,open_files,opens⟩
      exact eliminateOpenFiles_unopened named (listed_on_cache deletable) runs numeric open_files opens
    · cases here
  · cases member

/-- Whatever `MakeFreeSpaceOnCache` removes, in a run that may be cut off anywhere, is expendable, and
    removed only while what is told to be free is too little. -/
theorem removes_only_expendable (env : Env) (s : Storage) (bytesNeeded k : Nat) (answers : List Answer)
    (from_env : answers <+: env.answers k) : ∃ removed,
      (makeFreeSpaceOnCache bytesNeeded s answers).state = removed.foldl remove s ∧
      (∀ path ∈ removed, Expendable env s path) ∧ (bytesNeeded ≤ env.reported 0 → removed = []) ∧
      ∀ i < removed.length, env.reported i < bytesNeeded := by
  obtain ⟨m, few, state, before, -⟩ := makeFreeSpaceOnCache_spec bytesNeeded s from_env
  have count : ((env.candidates s).take m).length = m := by rw [length_take]; omega
  refine ⟨(env.candidates s).take m, state, fun path member => candidates_expendable (mem_of_mem_take member),
    fun enough => ?_, fun i less => before i (by omega)⟩
  cases m with
  | zero => rfl
  | succ m => exact absurd (before 0 (Nat.succ_pos m)) (by omega)

/-- A log of an update and a file that a process has open; nothing is free until the log is gone. -/
def twoLogs : Env where
  report i := { blockSize := 4096, count := i }
  listing dir := { ok := dir == "/cache".toList, names := ["open.log".toList, "update.log".toList] }
  proc := { links := [("self".toList, none), ("12".toList, some ["/cache/open.log".toList])] }
  unlinked _ := {}
def twoFiles : Storage where
  files path := if path ∈ ["/cache/open.log".toList, "/cache/update.log".toList] then some created else none
  mtd _ := none
  removable _ := true
  lossless _ := true

theorem twoLogs_removes_only_expendable :
    ((makeFreeSpaceOnCache 100 twoFiles (twoLogs.answers 1)).state.files "/cache/update.log".toList = none ∧
      (makeFreeSpaceOnCache 100 twoFiles (twoLogs.answers 1)).state.files "/cache/open.log".toList = some created) ∧
    ∃ removed, (makeFreeSpaceOnCache 100 twoFiles (twoLogs.answers 1)).state = removed.foldl remove twoFiles ∧
      (∀ path ∈ removed, Expendable twoLogs twoFiles path) ∧ (100 ≤ twoLogs.reported 0 → removed = []) ∧
      ∀ i < removed.length, twoLogs.reported i < 100 :=
  ⟨by decide, removes_only_expendable twoLogs twoFiles 100 1 (twoLogs.answers 1) (prefix_refl _)⟩

/-! ## Whether there is room -/

private theorem deleteLoop_returns (bytesNeeded : Nat) (names : List (Option Path)) (s : Storage) {i k : Nat}
    (enough : names.reduceOption.length ≤ k) :
    ∃ freeNow, (deleteLoop bytesNeeded names (env.reported i) s (env.rounds i k)).value = some freeNow := by
  induction names generalizing s i k with
  | nil => exact ⟨_,rfl⟩
  | cons name names ih =>
    by_cases little : env.reported i < bytesNeeded
    · cases name with
      | none =>
        rw [deleteLoop_none names s little]
        exact ih s enough
      | some path =>
        rw [reduceOption_cons_of_some,length_cons] at enough
        obtain ⟨k,rfl⟩ : ∃ n, k = n + 1 := ⟨k - 1,by omega⟩
        rw [deleteLoop_some path names s little]
        exact ih (remove s path) (by omega)
    · rw [deleteLoop_stops _ s (by omega)]
      exact ⟨_,rfl⟩
private theorem makeFreeSpaceOnCache_returns (env : Env) (bytesNeeded : Nat) (s : Storage) :
    ∃ value, (makeFreeSpaceOnCache bytesNeeded s (env.answers (env.candidates s).length)).value = some value := by
  unfold Env.answers
  by_cases enough : bytesNeeded ≤ env.reported 0
  · rw [make_enough enough]
    exact ⟨_,rfl⟩
  have little : env.reported 0 < bytesNeeded := by omega
  have found := findExpendableFiles_run env s (env.rounds 0 (env.candidates s).length)
  by_cases listed : env.proc.ok = true
  · rw [if_pos listed] at found
    by_cases something : env.names s = []
    · rw [something] at found
      rw [make_nothing little found]
      exact ⟨_,rfl⟩
    have short : (env.names s).reduceOption.length ≤ (env.candidates s).length := by
      rw [Env.candidates,if_pos listed]
    obtain ⟨freeNow,told⟩ := deleteLoop_returns bytesNeeded (env.names s) s (i := 0) short
    rw [make_loop little found something,next_some told]
    exact ⟨_,rfl⟩
  · rw [if_neg listed] at found
    rw [make_unlisted little found]
    exact ⟨_,rfl⟩

/-- What `statfs` tells when it works is what is free. -/
def Honest (env : Env) (free : Nat → Nat) : Prop :=
  ∀ i, (env.report i).ok = true → (env.report i).blockSize * (env.report i).count = free i
/-- When the call succeeds, so many bytes are free. -/
def MakesRoom (env : Env) (s : Storage) (bytesNeeded : Nat) : Prop :=
  ∀ free k, Honest env free → (makeFreeSpaceOnCache bytesNeeded s (env.answers k)).value = some 0 →
    bytesNeeded ≤ free (env.removals s bytesNeeded)
def Asked (env : Env) (s : Storage) (bytesNeeded i : Nat) : Prop :=
  i ≤ (env.candidates s).length ∧ ∀ j < i, env.reported j < bytesNeeded

theorem reported_le {i : Nat} (ok : (env.report i).ok = true) :
    env.reported i ≤ (env.report i).blockSize * (env.report i).count := by
  rw [Env.reported,if_pos ok]
  exact_mod_cast unsigned_le 64 ((env.report i).blockSize * (env.report i).count)
theorem reported_failed {i : Nat} (failed : (env.report i).ok = false) : env.reported i = 2 ^ 64 - 1 := by
  rw [Env.reported,failed,if_neg (by decide)]
  decide

/-- The call succeeds with so many bytes free exactly when none are needed or no `statfs` that it
    makes fails. -/
theorem makes_room_iff (env : Env) (s : Storage) (bytesNeeded : Nat) (fits : bytesNeeded < 2 ^ 64) :
    MakesRoom env s bytesNeeded ↔
      bytesNeeded = 0 ∨ ∀ i, Asked env s bytesNeeded i → (env.report i).ok = true := by
  constructor
  · intro room
    by_contra neither
    obtain ⟨needed, i, ⟨few, before⟩, failed⟩ :
        bytesNeeded ≠ 0 ∧ ∃ i, Asked env s bytesNeeded i ∧ (env.report i).ok = false := by
      simpa using neither
    have enough : bytesNeeded ≤ env.reported i := by
      rw [reported_failed failed]
      omega
    have last : env.removals s bytesNeeded = i := removals_eq few before (.inr enough)
    -- nothing is free after the last removal, and no `statfs` that works is wrong about it
    let free (j : Nat) : Nat := if j = i then 0 else (env.report j).blockSize * (env.report j).count
    have honest : Honest env free := by
      intro j ok
      rw [show free j = _ from if_neg ?_]
      rintro rfl
      simp [failed] at ok
    obtain ⟨value, returned⟩ := makeFreeSpaceOnCache_returns env bytesNeeded s
    obtain ⟨m, -, -, -, returns⟩ := makeFreeSpaceOnCache_spec bytesNeeded s (prefix_refl (env.answers _))
    obtain ⟨rfl, value_eq⟩ := returns value returned
    rw [last, if_pos enough] at value_eq
    subst value_eq
    have none_free := room free _ honest returned
    rw [last, show free i = 0 from if_pos rfl] at none_free
    omega
  · rintro (rfl | works) free k honest returned
    · exact Nat.zero_le _
    obtain ⟨m, few, -, before, returns⟩ := makeFreeSpaceOnCache_spec bytesNeeded s (prefix_refl (env.answers k))
    obtain ⟨rfl, value⟩ := returns 0 returned
    have ok := works _ ⟨few, before⟩
    rw [← honest _ ok]
    refine le_trans ?_ (reported_le ok)
    by_contra little
    rw [if_neg little] at value
    cases value

/-- Nothing is there to be removed, and each `statfs` ends the same way. -/
def noFiles (told : Answer) : Env := ⟨fun _ => told, fun _ => {}, {}, fun _ => {}⟩
def emptyStorage : Storage := ⟨fun _ => none, fun _ => none, fun _ => true, fun _ => true⟩

/-- `/cache` cannot be asked for its room: with none free, there is said to be enough. -/
theorem failed_statfs_makes_room : ∃ free, Honest (noFiles { ok := false }) free ∧
    free ((noFiles { ok := false }).removals emptyStorage 4096) = 0 ∧
    (makeFreeSpaceOnCache 4096 emptyStorage ((noFiles { ok := false }).answers 0)).value = some 0 :=
  ⟨fun _ => 0, fun _ ok => (by cases ok), rfl, by decide⟩

/-- One log has to go before there is room. -/
theorem honest_statfs_makes_room :
    (makeFreeSpaceOnCache 100 twoFiles (twoLogs.answers 1)).state.files "/cache/update.log".toList = none ∧
      MakesRoom twoLogs twoFiles 100 :=
  ⟨by decide, (makes_room_iff twoLogs twoFiles 100 (by decide)).mpr (.inr fun _ _ => rfl)⟩

end Recovery.CacheSpace
