import Mathlib.Order.Interval.Finset.Nat
import Mathlib.Tactic.Common

/-!
Segments of an initial part of the natural numbers, told by the last index of each,
and permutations that move only part of it.
-/
namespace Recovery.Segments

/-! ## Segments -/

/-- `last k` is the last index of the segment of `k`, for the indices up to `n`. -/
structure Ends (n : Nat) (last : Nat → Nat) : Prop where
  low : ∀ k ≤ n, k ≤ last k
  high : ∀ k ≤ n, last k ≤ n
  flat : ∀ k ≤ n, ∀ m, k ≤ m → m ≤ last k → last m = last k

/-- A segment from its first index on. -/
structure Segment (last : Nat → Nat) (first final : Nat) : Prop where
  before : ∀ k < first, last k < first
  whole : ∀ k, first ≤ k → k ≤ final → last k = final

/-- The first part of a segment made one of its own. -/
def cut (last : Nat → Nat) (first middle : Nat) : Nat → Nat := fun k =>
  if first ≤ k ∧ k ≤ middle then middle else last k

variable {n first middle final : Nat} {last : Nat → Nat}

theorem cut_inside {k : Nat} (low : first ≤ k) (high : k ≤ middle) : cut last first middle k = middle := by
  simp [cut,low,high]
theorem cut_outside {k : Nat} (out : k < first ∨ middle < k) : cut last first middle k = last k := by
  have : ¬ (first ≤ k ∧ k ≤ middle) := by omega
  simp [cut,this]

theorem ends_cut (ends : Ends n last) (segment : Segment last first final) (high : middle ≤ final) (inside : final ≤ n) :
    Ends n (cut last first middle) := by
  refine ⟨fun k small => ?_,fun k small => ?_,fun k small m after before => ?_⟩
  · by_cases here : first ≤ k ∧ k ≤ middle
    · rw [cut_inside here.1 here.2]
      exact here.2
    · rw [cut_outside (by omega)]
      exact ends.low k small
  · by_cases here : first ≤ k ∧ k ≤ middle
    · rw [cut_inside here.1 here.2]
      omega
    · rw [cut_outside (by omega)]
      exact ends.high k small
  · by_cases here : first ≤ k ∧ k ≤ middle
    · rw [cut_inside here.1 here.2] at before ⊢
      rw [cut_inside (by omega) before]
    have same : cut last first middle k = last k := cut_outside (by omega)
    rw [same] at before ⊢
    rw [← ends.flat k small m after before]
    refine cut_outside ?_
    by_contra within
    -- only an index before the first one could reach over the cut
    have := segment.before k (by omega)
    omega
theorem cut_refines (ends : Ends n last) (segment : Segment last first final) (high : middle ≤ final) {j k : Nat}
    (small : j ≤ n) (small' : k ≤ n) (same : cut last first middle j = cut last first middle k) : last j = last k := by
  have apart {i m : Nat} (inside : first ≤ i ∧ i ≤ middle) (small : m ≤ n) (out : ¬ (first ≤ m ∧ m ≤ middle))
      (same : cut last first middle i = cut last first middle m) : False := by
    rw [cut_inside inside.1 inside.2,cut_outside (by omega)] at same
    by_cases early : m < first
    · have := segment.before m early
      omega
    · have := ends.low m small
      omega
  by_cases inside : first ≤ j ∧ j ≤ middle
  · by_cases inside' : first ≤ k ∧ k ≤ middle
    · rw [segment.whole j inside.1 (by omega),segment.whole k inside'.1 (by omega)]
    · exact (apart inside small' inside' same).elim
  · by_cases inside' : first ≤ k ∧ k ≤ middle
    · exact (apart inside' small inside same.symm).elim
    · rwa [cut_outside (by omega),cut_outside (by omega)] at same
theorem segment_cut (segment : Segment last first final) (low : first ≤ middle) :
    Segment (cut last first middle) (middle + 1) final := by
  refine ⟨fun k early => ?_,fun k after before => ?_⟩
  · by_cases here : first ≤ k
    · rw [cut_inside here (by omega)]
      omega
    · rw [cut_outside (by omega)]
      have := segment.before k (by omega)
      omega
  · rw [cut_outside (by omega)]
    exact segment.whole k (by omega) before

/-! ## Permutations of a part -/

/-- A permutation that moves only the indices from `lo` up to `hi`. -/
def Moves (lo hi : Nat) (σ : Equiv.Perm Nat) : Prop := ∀ k, ¬ (lo ≤ k ∧ k < hi) → σ k = k

variable {lo hi : Nat} {σ τ : Equiv.Perm Nat}

theorem moves_refl (lo hi : Nat) : Moves lo hi (Equiv.refl Nat) := fun _ _ => rfl
theorem moves_trans (first : Moves lo hi σ) (second : Moves lo hi τ) : Moves lo hi (σ.trans τ) := by
  intro k out
  rw [Equiv.trans_apply,first k out,second k out]
theorem moves_swap {i j : Nat} (inside : lo ≤ i ∧ i < hi) (inside' : lo ≤ j ∧ j < hi) : Moves lo hi (Equiv.swap i j) := by
  intro k out
  refine Equiv.swap_apply_of_ne_of_ne ?_ ?_
  · rintro rfl; exact out inside
  · rintro rfl; exact out inside'
theorem moves_inside (moves : Moves lo hi σ) {k : Nat} (inside : lo ≤ k ∧ k < hi) : lo ≤ σ k ∧ σ k < hi := by
  by_contra out
  have same : σ k = k := σ.injective (moves _ out)
  rw [same] at out
  exact out inside
theorem moves_flat (moves : Moves lo hi σ) {value : Nat} (whole : ∀ k, lo ≤ k → k < hi → last k = value) (k : Nat) :
    last (σ k) = last k := by
  by_cases inside : lo ≤ k ∧ k < hi
  · have inside' := moves_inside moves inside
    rw [whole k inside.1 inside.2,whole (σ k) inside'.1 inside'.2]
  · rw [moves k inside]

theorem perm_of_injective (f : Nat → Nat) (maps : ∀ k ≤ n, f k ≤ n)
    (injective : ∀ i j, i ≤ n → j ≤ n → f i = f j → i = j) :
    ∃ P : Equiv.Perm Nat, (∀ k, P k ≤ n ↔ k ≤ n) ∧ ∀ k ≤ n, P (f k) = k := by
  let g : Nat → Nat := fun k => if k ≤ n then f k else k
  have inside (k : Nat) (small : k ≤ n) : g k = f k := if_pos small
  have outside (k : Nat) (large : ¬ k ≤ n) : g k = k := if_neg large
  have stays (k : Nat) : g k ≤ n ↔ k ≤ n := by
    by_cases small : k ≤ n
    · simp only [inside k small,maps k small,small]
    · rw [outside k small]
  have onto : Set.SurjOn g (Finset.Iic n) (Finset.Iic n) := by
    refine Finset.surjOn_of_injOn_of_card_le g (fun k small => ?_) (fun i small j small' same => ?_) (le_refl _)
    · simp only [Finset.coe_Iic,Set.mem_Iic] at small ⊢
      exact (stays k).mpr small
    · simp only [Finset.coe_Iic,Set.mem_Iic] at small small'
      rw [inside i small,inside j small'] at same
      exact injective i j small small' same
  have bijective : Function.Bijective g := by
    refine ⟨fun i j same => ?_,fun k => ?_⟩
    · by_cases small : i ≤ n
      · have small' : j ≤ n := by rwa [← stays,← same,stays]
        rw [inside i small,inside j small'] at same
        exact injective i j small small' same
      · have large : ¬ j ≤ n := by rwa [← stays,← same,stays]
        rwa [outside i small,outside j large] at same
    · by_cases small : k ≤ n
      · obtain ⟨j,_,found⟩ := onto (show k ∈ ((Finset.Iic n : Finset Nat) : Set Nat) by simpa using small)
        exact ⟨j,found⟩
      · exact ⟨k,outside k small⟩
  refine ⟨(Equiv.ofBijective g bijective).symm,fun k => ?_,fun k small => ?_⟩
  · rw [← stays,Equiv.ofBijective_apply_symm_apply g bijective k]
  · rw [Equiv.symm_apply_eq]
    exact (inside k small).symm

/-- How many indices of a part have a property. -/
def tally (p : Nat → Prop) [DecidablePred p] (lo hi : Nat) : Nat := ((Finset.Ico lo hi).filter p).card

theorem tally_moves (moves : Moves lo hi σ) (p : Nat → Prop) [DecidablePred p] :
    tally (fun k => p (σ k)) lo hi = tally p lo hi := by
  refine Finset.card_bij (fun k _ => σ k) ?_ (fun _ _ _ _ same => σ.injective same) ?_
  · intro k member
    simp only [Finset.mem_filter,Finset.mem_Ico] at member ⊢
    exact ⟨moves_inside moves member.1,member.2⟩
  intro k member
  simp only [Finset.mem_filter,Finset.mem_Ico] at member
  refine ⟨σ.symm k,?_,σ.apply_symm_apply k⟩
  have inside : lo ≤ σ.symm k ∧ σ.symm k < hi := by
    by_contra out
    have same := moves _ out
    rw [σ.apply_symm_apply] at same
    rw [← same] at out
    exact out member.1
  simp only [Finset.mem_filter,Finset.mem_Ico,σ.apply_symm_apply]
  exact ⟨inside,member.2⟩
theorem tally_room (p : Nat → Prop) [DecidablePred p] {a b i : Nat} (known : ∀ k, a ≤ k → k < b → p k) (here : p i)
    (low : lo ≤ a) (high : b ≤ hi) (inside : lo ≤ i ∧ i < hi) (other : ¬ (a ≤ i ∧ i < b)) : b - a < tally p lo hi := by
  have more : insert i (Finset.Ico a b) ⊆ (Finset.Ico lo hi).filter p := by
    intro k member
    simp only [Finset.mem_insert,Finset.mem_Ico,Finset.mem_filter] at member ⊢
    rcases member with rfl | member
    · exact ⟨inside,here⟩
    · exact ⟨by omega,known k member.1 member.2⟩
  have size := Finset.card_le_card more
  rw [Finset.card_insert_of_notMem (by simpa using other),Nat.card_Ico] at size
  exact size
theorem tally_succ (p : Nat → Prop) [DecidablePred p] (low : lo ≤ hi) :
    tally p lo (hi + 1) = tally p lo hi + if p hi then 1 else 0 := by
  have step : Finset.Ico lo (hi + 1) = insert hi (Finset.Ico lo hi) := by
    ext k
    simp only [Finset.mem_Ico,Finset.mem_insert]
    omega
  rw [tally,tally,step,Finset.filter_insert]
  split
  · rw [Finset.card_insert_of_notMem (by simp)]
  · rfl
theorem tally_self (p : Nat → Prop) [DecidablePred p] (lo : Nat) : tally p lo lo = 0 := by simp [tally]
theorem tally_three {α : Type} [LinearOrder α] (f : Nat → α) (x : α) (low : lo ≤ hi) :
    tally (fun k => f k < x) lo hi + tally (fun k => f k = x) lo hi + tally (fun k => x < f k) lo hi = hi - lo := by
  induction hi, low using Nat.le_induction with
  | base => simp [tally_self]
  | succ hi low ih =>
    rw [tally_succ _ low,tally_succ _ low,tally_succ _ low]
    rcases lt_trichotomy (f hi) x with less | equal | more
    · rw [if_pos less,if_neg less.ne,if_neg less.asymm]
      omega
    · rw [if_neg equal.not_lt,if_pos equal,if_neg equal.not_gt]
      omega
    · rw [if_neg more.asymm,if_neg more.ne',if_pos more]
      omega

end Recovery.Segments
