import Mathlib.Data.List.InsertIdx
import Mathlib.Order.Lattice
import Mathlib.Tactic.Common

/-!
Insertion into a sorted list at a place found by bisection.
-/
namespace Recovery.Bisection
open List

/-- The bisection between two indices, both included, by the sign of the difference at
    an index. It ends at an equal element or just below the first greater one. -/
def bisect (diff : Nat → Int) : Nat → Int → Int → Int
  | 0, _, high => high
  | steps + 1, low, high =>
    if low ≤ high then
      let mid := low + (high - low) / 2
      if diff mid.toNat < 0 then bisect diff steps (mid + 1) high
      else if diff mid.toNat > 0 then bisect diff steps low (mid - 1)
      else mid
    else high

section
variable {α K : Type} [LinearOrder K] {key : α → K} {l : List α} {k : K}

def Sorted (key : α → K) (l : List α) : Prop := l.Pairwise fun a b => key a ≤ key b

/-- A place for an element of key `k`: behind one of its equals, if there are any. -/
structure Placed (key : α → K) (l : List α) (k : K) (target : Nat) : Prop where
  inside : target ≤ l.length
  below : ∀ a ∈ l.take target, key a ≤ k
  above : ∀ a ∈ l.drop target, k ≤ key a
  behind : (∃ a ∈ l, key a = k) → ∃ a ∈ l.take target, key a = k

theorem Sorted.le (sorted : Sorted key l) {i j : Nat} (order : i < j) (inside : j < l.length) :
    key (l[i]) ≤ key l[j] :=
  pairwise_iff_getElem.mp sorted i j (by omega) inside order

theorem placed_of {n : Nat} (inside : n ≤ l.length) (below : ∀ i, (less : i < l.length) → i < n → key l[i] ≤ k)
    (above : ∀ i, (less : i < l.length) → n ≤ i → k ≤ key l[i])
    (behind : ∀ i, (less : i < l.length) → key l[i] = k → ∃ j, ∃ less : j < l.length, j < n ∧ key l[j] = k) :
    Placed key l k n := by
  refine ⟨inside,fun a member => ?_,fun a member => ?_,fun ⟨a,member,same⟩ => ?_⟩
  · obtain ⟨i,less,rfl⟩ := getElem_of_mem member
    rw [length_take] at less
    rw [getElem_take]
    exact below i (by omega) (by omega)
  · obtain ⟨i,less,rfl⟩ := getElem_of_mem member
    rw [length_drop] at less
    rw [getElem_drop]
    exact above _ (by omega) (by omega)
  · obtain ⟨i,less,rfl⟩ := getElem_of_mem member
    obtain ⟨j,less,early,equal⟩ := behind i less same
    exact ⟨l[j],mem_take_iff_getElem.mpr ⟨j,by omega,rfl⟩,equal⟩

theorem placed_between {low high : Int} (start : 0 ≤ low) (met : low = high + 1) (stop : high < l.length)
    (before : ∀ i, (inside : i < l.length) → (i : Int) < low → key l[i] < k)
    (after : ∀ i, (inside : i < l.length) → high < (i : Int) → k < key l[i]) : Placed key l k (high + 1).toNat := by
  refine placed_of (by omega) (fun i inside less => ?_) (fun i inside more => ?_) fun i inside same => ?_
  · exact le_of_lt (before i inside (by omega))
  · exact le_of_lt (after i inside (by omega))
  · by_cases less : (i : Int) < low
    · exact absurd same (ne_of_lt (before i inside less))
    · exact absurd same.symm (ne_of_lt (after i inside (by omega)))

theorem bisect_placed {diff : Nat → Int} (sorted : Sorted key l)
    (signs : ∀ i, (inside : i < l.length) → (diff i < 0 ↔ key l[i] < k) ∧ (diff i > 0 ↔ k < key l[i]))
    {steps : Nat} {low high : Int} (start : 0 ≤ low) (order : low ≤ high + 1) (stop : high < l.length)
    (enough : high - low < steps)
    (before : ∀ i, (inside : i < l.length) → (i : Int) < low → key l[i] < k)
    (after : ∀ i, (inside : i < l.length) → high < (i : Int) → k < key l[i]) :
    -1 ≤ bisect diff steps low high ∧ Placed key l k (bisect diff steps low high + 1).toNat := by
  induction steps generalizing low high with
  | zero =>
    unfold bisect
    exact ⟨by omega,placed_between start (by omega) stop before after⟩
  | succ steps ih =>
    unfold bisect
    by_cases more : low ≤ high
    · rw [if_pos more]
      obtain ⟨mid,middle⟩ : ∃ mid : Nat, low + (high - low) / 2 = mid := ⟨(low + (high - low) / 2).toNat,by omega⟩
      have inside : mid < l.length := by omega
      obtain ⟨less,greater⟩ := signs mid inside
      simp only [middle,Int.toNat_natCast]
      split
      · rename_i negative
        refine ih (by omega) (by omega) stop (by omega) (fun i insideI below => ?_) after
        rcases Nat.lt_or_ge i mid with earlier | later
        · exact lt_of_le_of_lt (sorted.le earlier inside) (less.mp negative)
        · obtain rfl : i = mid := by omega
          exact less.mp negative
      · rename_i nonnegative
        split
        · rename_i positive
          refine ih start (by omega) (by omega) (by omega) before fun i insideI above => ?_
          rcases Nat.lt_or_ge mid i with later | earlier
          · exact lt_of_lt_of_le (greater.mp positive) (sorted.le later insideI)
          · obtain rfl : i = mid := by omega
            exact greater.mp positive
        · rename_i nonpositive
          have same : key l[mid] = k :=
            le_antisymm (not_lt.mp (greater.not.mp nonpositive)) (not_lt.mp (less.not.mp nonnegative))
          refine ⟨by omega,placed_of (by omega) (fun i insideI below => ?_) (fun i insideI above => ?_)
            fun i insideI _ => ⟨mid,inside,by omega,same⟩⟩
          · rcases Nat.lt_or_ge i mid with earlier | later
            · exact same ▸ sorted.le earlier inside
            · obtain rfl : i = mid := by omega
              exact le_of_eq same
          · exact same ▸ sorted.le (by omega) insideI
    · rw [if_neg more]
      exact ⟨by omega,placed_between start (by omega) stop before after⟩

/-! ## Insertion -/

theorem insertIdx_split {n : Nat} (inside : n ≤ l.length) (a : α) : l.insertIdx n a = l.take n ++ a :: l.drop n := by
  induction l generalizing n with
  | nil =>
    obtain rfl : n = 0 := by simpa using inside
    rfl
  | cons b rest ih =>
    cases n with
    | zero => rfl
    | succ n =>
      rw [insertIdx_succ_cons,ih (by simpa using inside)]
      rfl
theorem Sorted.insert (sorted : Sorted key l) {a : α} {n : Nat} (placed : Placed key l (key a) n) :
    Sorted key (l.insertIdx n a) := by
  rw [insertIdx_split placed.inside]
  have parts : Sorted key (l.take n ++ l.drop n) := by rwa [take_append_drop]
  obtain ⟨first,second,across⟩ := pairwise_append.mp parts
  refine pairwise_append.mpr ⟨first,pairwise_cons.mpr ⟨placed.above,second⟩,fun b member c later => ?_⟩
  rcases mem_cons.mp later with rfl | later
  · exact placed.below b member
  · exact across b member c later
theorem find_insert [DecidableEq K] {a : α} {n : Nat} (placed : Placed key l (key a) n) (j : K) :
    (l.insertIdx n a).find? (fun b => key b = j) =
      (l.find? fun b => key b = j).or (if key a = j then some a else none) := by
  rw [insertIdx_split placed.inside]
  conv_rhs => rw [← take_append_drop n l]
  rw [find?_append,find?_append,find?_cons]
  by_cases same : key a = j
  · subst same
    cases first : (l.take n).find? fun b => key b = key a with
    | some b => simp
    | none =>
      -- with no equal element before the place there is none behind it
      have alone : (l.drop n).find? (fun b => key b = key a) = none := by
        rw [find?_eq_none] at first ⊢
        intro b member equal
        obtain ⟨c,early,again⟩ := placed.behind ⟨b,mem_of_mem_drop member,by simpa using equal⟩
        exact first c early (by simpa using again)
      simp [alone]
  · simp [same]

end

end Recovery.Bisection
