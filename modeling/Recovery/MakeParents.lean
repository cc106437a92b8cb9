import Mathlib.Data.List.TakeWhile
import Recovery.Updater

/-!
`make_parents` of the updater (updater/install.c), which cuts its argument at every slash and makes the
directories from the first one on, and the place where `symlink` then makes its link.
-/
namespace Recovery.MakeParents
open Memory List

/-- What `mkdir` comes to: done, `EEXIST`, or another error. -/
inductive Outcome where
  | created | existed | failed
  deriving DecidableEq, Repr

def cstr (name : Bytes) : Bytes := name.takeWhile (· != 0)

/-- What a call leaves: its result, its argument, and the directories that `mkdir` made or found. -/
structure Result where
  code : Int
  name : Bytes
  there : List Bytes
  deriving DecidableEq, Repr

/-- The loop from `name + p` down. With a NUL at `p` the string has `p` bytes, and the inner call starts at
    the byte before. -/
def parentsLoop (mkdir : Bytes → Outcome) : Nat → Bytes → Result
  | 0, name => ⟨0, name, []⟩
  | p + 1, name =>
    if name[p + 1]? ≠ some 47 then parentsLoop mkdir p name
    else
      let inner := parentsLoop mkdir p (name.set (p + 1) 0)
      if inner.code < 0 then { inner with code := -1 }
      else
        let restored := inner.name.set (p + 1) 47
        if mkdir (cstr inner.name) = .failed then ⟨-1, restored, inner.there⟩
        else ⟨0, restored, inner.there ++ [cstr inner.name]⟩
def make_parents (mkdir : Bytes → Outcome) (name : Bytes) : Result := parentsLoop mkdir (name.length - 1) name
/-- The path that `SymlinkFn` gives to `symlink` for one of its arguments. -/
def linkPath (mkdir : Bytes → Outcome) (src : Bytes) : Bytes := cstr (make_parents mkdir src).name

def slashes : Nat → Bytes → List Nat
  | 0, _ => []
  | p + 1, name => slashes p name ++ if name[p + 1]? = some 47 then [p + 1] else []
/-- The proper ancestors of a path; the last one is its parent. -/
def ancestors (name : Bytes) : List Bytes := (slashes (name.length - 1) name).map (name.take ·)

theorem mem_slashes {p q : Nat} {name : Bytes} : q ∈ slashes p name ↔ 0 < q ∧ q ≤ p ∧ name[q]? = some 47 := by
  induction p with
  | zero => simp [slashes]; omega
  | succ p ih => simp only [slashes,mem_append,ih]; grind
variable {mkdir : Bytes → Outcome} {p k : Nat} {name : Bytes}

private theorem slashes_set (c : UInt8) (above : p < k) : slashes p (name.set k c) = slashes p name := by
  induction p with
  | zero => rfl
  | succ p ih => rw [slashes,slashes,ih (by omega),getElem?_set_ne (by omega)]
private theorem parentsLoop_above (above : p < k) : (parentsLoop mkdir p name).name[k]? = name[k]? := by
  induction p generalizing name with
  | zero => rfl
  | succ p ih =>
    have other : p + 1 ≠ k := by omega
    simp only [parentsLoop]
    split_ifs <;> simp [ih (show p < k by omega),getElem?_set_ne other]
private theorem cstr_cut (string : 0 ∉ name.take k) (inside : k < name.length) : cstr (name.set k 0) = name.take k := by
  rw [set_eq_take_append_cons_drop,if_pos inside,cstr,takeWhile_append_of_pos]
  · simp
  · intro c member
    simpa using ne_of_mem_of_not_mem member string

private theorem parentsLoop_spec (string : 0 ∉ name.take (p + 1)) :
    ((∀ q ∈ slashes p name, mkdir (name.take q) ≠ .failed) →
      parentsLoop mkdir p name = ⟨0,name,(slashes p name).map (name.take ·)⟩) ∧
    ((∃ q ∈ slashes p name, mkdir (name.take q) = .failed) → (parentsLoop mkdir p name).code = -1 ∧
      ((parentsLoop mkdir p name).name = name ↔ ∀ q ∈ (slashes p name).dropLast, mkdir (name.take q) ≠ .failed)) := by
  induction p generalizing name with
  | zero => simp [slashes,parentsLoop]
  | succ p ih =>
    have before : 0 ∉ name.take (p + 1) := fun member => string (take_subset_take_left _ (by omega) member)
    by_cases slash : name[p + 1]? = some 47
    swap
    · rw [parentsLoop,if_pos slash,slashes,if_neg slash,append_nil]
      exact ih before
    have inside : p + 1 < name.length := (List.getElem?_eq_some_iff.mp slash).1
    have takes (q) (low : q ∈ slashes p name) : (name.set (p + 1) 0).take q = name.take q :=
      take_set_of_le (by have := mem_slashes.mp low; omega)
    have above : (parentsLoop mkdir p (name.set (p + 1) 0)).name[p + 1]? = some 0 := by
      rw [parentsLoop_above (by omega),getElem?_set_self inside]
    obtain ⟨good,bad⟩ := @ih (name.set (p + 1) 0) (by rwa [take_set_of_le (by omega)])
    rw [slashes_set 0 (by omega)] at good bad
    rw [parentsLoop,if_neg (not_not.mpr slash),slashes,if_pos slash,dropLast_concat]
    by_cases fine : ∀ q ∈ slashes p name, mkdir (name.take q) ≠ .failed
    · rw [good fun q low => by rw [takes q low]; exact fine q low]
      have restored : (name.set (p + 1) 0).set (p + 1) 47 = name := by
        rw [set_set,← (List.getElem?_eq_some_iff.mp slash).2,set_getElem_self]
      have there : (slashes p name).map ((name.set (p + 1) 0).take ·) = (slashes p name).map (name.take ·) :=
        map_congr_left takes
      simp only [cstr_cut before inside,restored,there]
      by_cases last : mkdir (name.take (p + 1)) = .failed <;> simpa [last] using fine
    · obtain ⟨q,low,failed⟩ : ∃ q ∈ slashes p name, mkdir (name.take q) = .failed := by simpa using fine
      have code := (bad ⟨q,low,by rw [takes q low]; exact failed⟩).1
      have changed : (parentsLoop mkdir p (name.set (p + 1) 0)).name ≠ name := fun same => by
        rw [same,slash] at above
        cases above
      refine ⟨fun all => absurd failed (all q (by simp [low])),fun _ => ⟨by simp [code],?_⟩⟩
      exact iff_of_false (by simpa [code] using changed) fun all => all q low failed

/-- The argument of `make_parents` is left as it was, its ancestors are there if 0 is returned, and the link is
    made at the path that was given. -/
def Right (mkdir : Bytes → Outcome) (name : Bytes) : Prop :=
  (make_parents mkdir name).name = name ∧
    ((make_parents mkdir name).code = 0 → ∀ a ∈ ancestors name, a ∈ (make_parents mkdir name).there) ∧
    linkPath mkdir name = name

/-- All of this holds exactly if no `mkdir` fails, other than that of the parent itself. -/
theorem make_parents_right_iff (mkdir : Bytes → Outcome) (name : Bytes) (string : 0 ∉ name) :
    Right mkdir name ↔ ∀ a ∈ (ancestors name).dropLast, mkdir a ≠ .failed := by
  obtain ⟨good, bad⟩ := @parentsLoop_spec mkdir (name.length - 1) name fun member => string (mem_of_mem_take member)
  have whole : cstr name = name := takeWhile_eq_self_iff.mpr fun c member => by
    simpa using ne_of_mem_of_not_mem member string
  have condition : (∀ a ∈ (ancestors name).dropLast, mkdir a ≠ .failed) ↔
      ∀ q ∈ (slashes (name.length - 1) name).dropLast, mkdir (name.take q) ≠ .failed := by
    rw [ancestors, ← map_dropLast, forall_mem_map]
  rw [condition]
  unfold Right linkPath make_parents
  by_cases fine : ∀ q ∈ slashes (name.length - 1) name, mkdir (name.take q) ≠ .failed
  · rw [good fine]
    exact iff_of_true ⟨rfl, fun _ a member => member, whole⟩ fun q member => fine q (dropLast_subset _ member)
  · obtain ⟨code, unchanged⟩ := bad (by simpa using fine)
    rw [← unchanged, code]
    exact ⟨And.left, fun same => ⟨same, by simp, by rw [same, whole]⟩⟩

/-- `a/b/c`, where `a` is there and `a/b` can be made. -/
theorem madeParent_right : Right (fun path => if path = [97] then .existed else .created) [97, 47, 98, 47, 99] :=
  (make_parents_right_iff _ _ (by decide)).mpr (by decide)
/-- If `a` cannot be made, the argument ends up as `a/b`, and the link is made there. -/
theorem failedAncestor_wrong : ¬ Right (fun _ => .failed) [97, 47, 98, 47, 99] ∧
    linkPath (fun _ => .failed) [97, 47, 98, 47, 99] = [97, 47, 98] := by
  unfold Right
  decide

/-! ## The calls of the updater -/

open Program Program.Prog Edify

variable {text : Bytes}

private theorem lastSlash_none (none : ∀ q, 0 < q → text[q]? ≠ some 47) : Updater.lastSlash text = .none := by
  refine find?_eq_none.mpr fun q _ => ?_
  simpa using none q
private theorem lastSlash_some (low : 0 < k) (slash : text[k]? = some 47) (last : ∀ q, k < q → text[q]? ≠ some 47) :
    Updater.lastSlash text = some k := by
  have inside : k < text.length := (List.getElem?_eq_some_iff.mp slash).1
  obtain ⟨m,length⟩ : ∃ m, text.length = k + 1 + m := ⟨text.length - (k + 1),by omega⟩
  refine find?_eq_some_iff_append.mpr ⟨by simp [low,slash],((range m).map (k + 1 + ·)).reverse,(range k).reverse,?_,fun q member => ?_⟩
  · rw [length,range_add,range_succ]
    simp
  · obtain ⟨i,-,rfl⟩ := mem_map.mp (mem_reverse.mp member)
    simpa using last (k + 1 + i) (by omega)

/-- The device's answers to `mkdir` tell of success where `mkdir` does not fail. -/
def Tells (mkdir : Bytes → Outcome) (reply : Bytes → Reply) : Prop :=
  ∀ path, (reply path).number = 0 ∨ (reply path).number = -Updater.EEXIST ↔ mkdir path ≠ .failed

/-- The string in a buffer, up to a NUL or the end. -/
structure Holds (name text : Bytes) : Prop where
  string : 0 ∉ text
  starts : text <+: name
  ends : ∀ c, name[text.length]? = some c → c = 0

theorem Holds.cstr (holds : Holds name text) : cstr name = text := by
  obtain ⟨string,⟨more,rfl⟩,ends⟩ := holds
  rw [MakeParents.cstr,takeWhile_append_of_pos]
  · cases more with
    | nil => simp
    | cons c more => simp [ends c (by simp)]
  · intro c member
    simpa using ne_of_mem_of_not_mem member string
theorem Holds.cut (holds : Holds name text) (inside : k < text.length) : Holds (name.set k 0) (text.take k) where
  string := fun member => holds.string (mem_of_mem_take member)
  starts := by
    obtain ⟨more,rfl⟩ := holds.starts
    rw [set_append_left _ _ inside,set_eq_take_append_cons_drop,if_pos inside,append_assoc]
    exact prefix_append _ _
  ends c found := by
    have long : k < name.length := lt_of_lt_of_le inside holds.starts.length_le
    rw [length_take,Nat.min_eq_left inside.le,getElem?_set_self long] at found
    exact (Option.some.inj found).symm

private theorem slashes_take (above : p < k) : slashes p (text.take k) = slashes p text := by
  induction p with
  | zero => rfl
  | succ p ih => rw [slashes,slashes,ih (by omega),getElem?_take_of_lt above]

private theorem replies_take (reply : Bytes → Reply) (above : p < k) :
    (slashes p (text.take k)).map (fun q => reply ((text.take k).take q)) =
      (slashes p text).map fun q => reply (text.take q) := by
  rw [slashes_take above]
  refine map_congr_left fun q member => ?_
  have low := mem_slashes.mp member
  rw [take_take,Nat.min_eq_left (by omega)]

-- by induction on the position: a byte that is no slash changes nothing, and at a slash both go on with the cut text
private theorem parentsLoop_follows {reply : Bytes → Reply} (tells : Tells mkdir reply) (holds : Holds name text)
    (inside : p + 1 ≤ text.length ∨ p = 0) (last : ∀ q, p < q → text[q]? ≠ some 47) {fuel : Nat} (enough : text.length ≤ fuel)
    (s : Session) (rest : List Reply) :
    ((parentsLoop mkdir p name).code = 0 ∧ (parentsLoop mkdir p name).name = name ∧ ∃ t,
      Updater.make_parents fuel text s ((slashes p text).map (fun q => reply (text.take q)) ++ rest) = ⟨some (true,text),t,rest⟩) ∨
    ((parentsLoop mkdir p name).code < 0 ∧ ∃ t left,
      Updater.make_parents fuel text s ((slashes p text).map (fun q => reply (text.take q)) ++ rest) =
        ⟨some (false,cstr (parentsLoop mkdir p name).name),t,left⟩) := by
  induction p generalizing name text fuel s rest with
  | zero =>
    refine .inl ⟨rfl,rfl,s,?_⟩
    cases fuel with
    | zero => rfl
    | succ fuel => rw [Updater.make_parents,lastSlash_none last]; rfl
  | succ p ih =>
    have room : p + 1 < text.length := by omega
    have here : name[p + 1]? = text[p + 1]? := by
      obtain ⟨more,rfl⟩ := holds.starts
      rw [getElem?_append_left room]
    by_cases slash : text[p + 1]? = some 47
    swap
    · rw [parentsLoop,if_pos (by rwa [here]),slashes,if_neg slash,append_nil]
      refine ih holds (.inl (by omega)) (fun q above => ?_) enough s rest
      rcases Nat.lt_or_eq_of_le (Nat.succ_le_of_lt above) with more | same
      · exact last q more
      · exact same ▸ slash
    obtain ⟨fuel,rfl⟩ : ∃ less, fuel = less + 1 := ⟨fuel - 1,by omega⟩
    have length : (text.take (p + 1)).length = p + 1 := by rw [length_take]; omega
    have inner := ih (holds.cut room) (.inl (by omega)) (fun q above => ?_)
      (show (text.take (p + 1)).length ≤ fuel by omega) s (reply (text.take (p + 1)) :: rest)
    swap
    · rw [getElem?_eq_none (by omega)]
      simp
    rw [parentsLoop,if_neg (not_not.mpr (here.trans slash)),slashes,if_pos slash,map_append,← replies_take reply p.lt_succ_self,append_assoc,
      Updater.make_parents,lastSlash_some (by omega) slash last]
    simp only [map_cons,map_nil,singleton_append,bind_run]
    rcases inner with ⟨code,same,t,run⟩ | ⟨code,t,left,run⟩
    · have restored : (name.set (p + 1) 0).set (p + 1) 47 = name := by
        rw [set_set,← (List.getElem?_eq_some_iff.mp (here.trans slash)).2,set_getElem_self]
      have asked := tells (text.take (p + 1))
      rw [run,if_neg (by omega),same,(holds.cut room).cstr,restored]
      by_cases failed : mkdir (text.take (p + 1)) = .failed
      · have bad : ¬ ((reply (text.take (p + 1))).number = 0 ∨ (reply (text.take (p + 1))).number = -Updater.EEXIST) :=
          fun good => asked.mp good failed
        right
        simpa [failed,Prog.next,bind_run,act,push,modify_run,ask_run,pure_run,holds.cstr] using not_or.mp bad
      · left
        simp [failed,Prog.next,bind_run,act,push,modify_run,ask_run,pure_run,asked.mpr failed]
    · rw [run,if_pos code]
      exact .inr ⟨by simp,t,left,by simp [Prog.next,pure_run]⟩

/-- The updater's own model of `make_parents`, which takes each answer of `mkdir` from the device, is this one. -/
theorem make_parents_follows {reply : Bytes → Reply} (tells : Tells mkdir reply) (string : 0 ∉ name) (s : Session)
    (rest : List Reply) :
    (Updater.make_parents name.length name s ((ancestors name).map reply ++ rest)).value =
      some (decide ((make_parents mkdir name).code = 0),linkPath mkdir name) := by
  have whole : Holds name name := ⟨string,prefix_rfl,fun c found => by simp at found⟩
  have run := parentsLoop_follows (p := name.length - 1) tells whole (by omega) (fun q above => ?_) le_rfl s rest
  swap
  · rw [getElem?_eq_none (by omega)]
    simp
  rw [ancestors,map_map]
  unfold linkPath make_parents
  rcases run with ⟨code,same,t,run⟩ | ⟨code,t,left,run⟩
  · rw [show reply ∘ (name.take ·) = fun q => reply (name.take q) from rfl,run,code,same,whole.cstr]
    rfl
  · rw [show reply ∘ (name.take ·) = fun q => reply (name.take q) from rfl,run]
    simp [show (parentsLoop mkdir (name.length - 1) name).code ≠ 0 by omega]

end Recovery.MakeParents
