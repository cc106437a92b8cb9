import Mathlib.Tactic.Common

/-!
Streams cut into blocks of a fixed size. Elements are put one by one into a buffer that is handed on
when it is full, and got one by one from a block that is fetched when the one before it is used up.
-/
namespace Recovery.Chunking
open List Option

variable {σ α : Type}

/-! ## Putting -/

/-- What the blocks are handed to, and the elements that do not make a block yet. -/
structure Putter (σ α : Type) where
  state : σ
  stored : List α

section
variable (size : Nat) (put : σ → List α → Option σ)

def putOne (p : Putter σ α) (x : α) : Option (Putter σ α) :=
  if p.stored.length + 1 = size then (put p.state (p.stored ++ [x])).map fun s => ⟨s, []⟩
  else some ⟨p.state, p.stored ++ [x]⟩
def putAll (p : Putter σ α) (xs : List α) : Option (Putter σ α) := xs.foldlM (putOne size put) p

variable {size put}

theorem putAll_nil (p : Putter σ α) : putAll size put p [] = some p := rfl
theorem putAll_append (p : Putter σ α) (xs ys : List α) :
    putAll size put p (xs ++ ys) = (putAll size put p xs).bind fun p => putAll size put p ys := by
  unfold putAll
  rw [foldlM_append]
  rfl

variable {xs : List α}

theorem putAll_short {p : Putter σ α} (short : p.stored.length + xs.length < size) :
    putAll size put p xs = some ⟨p.state,p.stored ++ xs⟩ := by
  induction xs generalizing p with
  | nil => rw [putAll_nil,append_nil]
  | cons x xs ih =>
    rw [length_cons] at short
    have one : putOne size put p x = some ⟨p.state,p.stored ++ [x]⟩ := if_neg (by omega)
    have rest : putAll size put ⟨p.state,p.stored ++ [x]⟩ xs = some ⟨p.state,p.stored ++ [x] ++ xs⟩ :=
      ih (by simp only [length_append,length_singleton]; omega)
    rw [putAll,foldlM_cons,one,bind_eq_bind,bind_some]
    rw [append_assoc] at rest
    exact rest
theorem putAll_full {p : Putter σ α} (some : xs ≠ []) (full : p.stored.length + xs.length = size) :
    putAll size put p xs = (put p.state (p.stored ++ xs)).map fun s => ⟨s,[]⟩ := by
  obtain ⟨front,x,rfl⟩ : ∃ front x, xs = front ++ [x] := ⟨_,_,(dropLast_concat_getLast some).symm⟩
  rw [length_append,length_singleton] at full
  rw [putAll_append,putAll_short (by omega),bind_some,← append_assoc]
  have last : putOne size put ⟨p.state,p.stored ++ front⟩ x =
      (put p.state (p.stored ++ front ++ [x])).map fun s => ⟨s,[]⟩ :=
    if_pos (by rw [length_append]; omega)
  rw [putAll,foldlM_cons,last]
  cases put p.state (p.stored ++ front ++ [x]) <;> rfl

theorem putAll_keeps {I : List α → Putter σ α → Prop}
    (step : ∀ taken p x q, I taken p → putOne size put p x = some q → I (taken ++ [x]) q) {taken : List α}
    {p q : Putter σ α} (holds : I taken p) (done : putAll size put p xs = some q) : I (taken ++ xs) q := by
  induction xs generalizing taken p with
  | nil =>
    cases done
    rwa [append_nil]
  | cons x xs ih =>
    rw [putAll,foldlM_cons] at done
    cases one : putOne size put p x with
    | none =>
      rw [one] at done
      cases done
    | some r =>
      rw [one] at done
      have := ih (step taken p x r holds one) done
      rwa [append_assoc] at this

end

/-! ## Getting -/

/-- Where the blocks come from, and what is left of the last one. -/
structure Getter (σ α : Type) where
  state : σ
  left : List α

section
variable (get : σ → Option (List α × σ))

def getOne (g : Getter σ α) : Option (α × Getter σ α) :=
  match g.left with
  | x :: rest => some (x, ⟨g.state, rest⟩)
  | [] => do
    match ← get g.state with
    | (x :: rest, s) => some (x, ⟨s, rest⟩)
    | ([], _) => none
def getMany : Nat → Getter σ α → Option (List α × Getter σ α)
  | 0, g => some ([], g)
  | n + 1, g => do
    let (x, g) ← getOne get g
    let (xs, g) ← getMany n g
    some (x :: xs, g)

variable {get}

theorem getMany_add (m n : Nat) (g : Getter σ α) : getMany get (m + n) g = (getMany get m g).bind fun r =>
    (getMany get n r.2).map fun q => (r.1 ++ q.1, q.2) := by
  induction m generalizing g with
  | zero =>
    rw [Nat.zero_add,getMany,bind_some]
    cases getMany get n g <;> rfl
  | succ m ih =>
    rw [Nat.succ_add,getMany,getMany]
    cases getOne get g with
    | none => rfl
    | some r =>
      simp only [bind_eq_bind,bind_some,ih]
      cases getMany get m r.2 with
      | none => rfl
      | some q =>
        simp only [bind_some]
        cases getMany get n q.2 <;> rfl
theorem getMany_left {n : Nat} {g : Getter σ α} (there : n ≤ g.left.length) :
    getMany get n g = some (g.left.take n, ⟨g.state,g.left.drop n⟩) := by
  induction n generalizing g with
  | zero => rfl
  | succ n ih =>
    obtain ⟨s,left⟩ := g
    cases left with
    | nil => simp at there
    | cons x rest =>
      have rest := ih (g := ⟨s,rest⟩) (by simpa using there)
      rw [getMany]
      simp only [getOne,bind_eq_bind,bind_some,rest]
      rfl
theorem getMany_fetch {n : Nat} (more : n ≠ 0) (s : σ) : getMany get n ⟨s,[]⟩ =
    (get s).bind fun r => if r.1 = [] then none else getMany get n ⟨r.2,r.1⟩ := by
  obtain ⟨n,rfl⟩ : ∃ m, n = m + 1 := ⟨n - 1,by omega⟩
  rw [getMany]
  cases fetched : get s with
  | none => simp [getOne,fetched]
  | some r =>
    obtain ⟨block,t⟩ := r
    cases block with
    | nil => simp [getOne,fetched]
    | cons x rest => simp [getOne,fetched,getMany]

/-- What is got is the stream that the blocks make up, when each block that is fetched is the
    next part of it. -/
theorem getMany_stream {I : σ → Prop} {stream : σ → List α}
    (fetches : ∀ s, I s → (stream s = [] ∧ get s = none) ∨
      ∃ block t, block ≠ [] ∧ I t ∧ stream s = block ++ stream t ∧ get s = some (block, t))
    {n : Nat} {g : Getter σ α} {all : List α} (holds : I g.state) (same : g.left ++ stream g.state = all) :
    (all.length < n ∧ getMany get n g = none) ∨
    ∃ g', n ≤ all.length ∧ I g'.state ∧ g'.left ++ stream g'.state = all.drop n ∧
      getMany get n g = some (all.take n, g') := by
  induction n generalizing g all with
  | zero => exact .inr ⟨g,Nat.zero_le _,holds,same,rfl⟩
  | succ n ih =>
    obtain ⟨s,left⟩ := g
    have one {x : α} {rest later : List α} {t : σ} (first : getOne get ⟨s,left⟩ = some (x,⟨t,later⟩))
        (holds : I t) (split : all = x :: rest) (after : later ++ stream t = rest) :
        (all.length < n + 1 ∧ getMany get (n + 1) ⟨s,left⟩ = none) ∨
        ∃ g', n + 1 ≤ all.length ∧ I g'.state ∧ g'.left ++ stream g'.state = all.drop (n + 1) ∧
          getMany get (n + 1) ⟨s,left⟩ = some (all.take (n + 1),g') := by
      subst split
      rcases ih (g := ⟨t,later⟩) holds after with ⟨few,fails⟩ | ⟨g',many,holds',same',gets⟩
      · exact .inl ⟨by simpa using few,by simp [getMany,first,fails]⟩
      · exact .inr ⟨g',by simpa using many,holds',same',by simp [getMany,first,gets]⟩
    cases left with
    | cons x later => exact one rfl holds same.symm rfl
    | nil =>
      rcases fetches s holds with ⟨none,fails⟩ | ⟨block,t,some,holds',split,gets⟩
      · have empty : all = [] := by
          rw [← same]
          exact none
        exact .inl ⟨by simp [empty],by simp [getMany,getOne,fails]⟩
      · obtain ⟨x,later,rfl⟩ := exists_cons_of_ne_nil some
        have first : getOne get ⟨s,[]⟩ = Option.some (x,⟨t,later⟩) := by simp [getOne,gets]
        refine one first holds' ?_ rfl
        rw [← same]
        exact split

end

end Recovery.Chunking
