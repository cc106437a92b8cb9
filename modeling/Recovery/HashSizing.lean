import Recovery.HashCalls

/-!
The sizes of minzip's hash table: a table that was made for a number of items takes them as it is.
-/
namespace Recovery.HashSizing
open Memory Probing Hash HashCalls List

/-- The numbers that the code computes for `n` items fit their types: the size an unsigned int, and
    both sides of the test of the load an int. -/
structure Fits (n : Nat) : Prop where
  size : mzHashSize n < 2 ^ 32
  table : roundUpPower2 (mzHashSize n) * LOAD_NUMER < 2 ^ 31
  load : n * LOAD_DENOM < 2 ^ 31

def adding {α : Type} (xs : List α) : List (Call α) := xs.map fun x => .lookup x true
def added {α : Type} (xs : List α) : List (Answer α) := xs.map fun x => .found (some x)

variable {α K : Type} [DecidableEq α] {key : α → K} {H : K → Nat} {calloc : Nat → Bool} {cmpFunc : α → α → Int}

private theorem calls_add (agrees : ∀ a b, cmpFunc a b = 0 ↔ key a = key b) {k : Nat} (small : k ≤ 28) {xs : List α}
    {t : HashTable α} (kept : Kept key H t k) (fresh : tombstones t.pEntries = 0)
    (distinct : ((xs ++ items t.pEntries).map key).Nodup)
    (room : 8 * ((items t.pEntries).length + xs.length) ≤ 5 * 2 ^ k) :
    ∃ u, t.calls calloc (H ∘ key) cmpFunc (adding xs) = .ok (added xs, u) ∧ u.tableSize = t.tableSize := by
  induction xs generalizing t with
  | nil => exact ⟨t,rfl,rfl⟩
  | cons x xs ih =>
    rw [length_cons] at room
    have new a (member : a ∈ items t.pEntries) : key a ≠ key x := by
      intro same
      rw [cons_append,map_cons,nodup_cons] at distinct
      exact distinct.1 (same ▸ mem_map_of_mem (mem_append_right xs member))
    obtain ⟨u,looked,kept',more,unmarked⟩ :=
      lookup_adds_light kept small (fun a _ => agrees a x) new (by rw [fresh]; omega)
    have later : ((xs ++ items u.pEntries).map key).Nodup :=
      (((more.append_left xs).trans perm_middle).map key).nodup_iff.mpr distinct
    obtain ⟨v,runs,same⟩ := ih kept' (unmarked.trans fresh) later (by rw [more.length_eq,length_cons]; omega)
    refine ⟨v,?_,same.trans (kept'.size.trans kept.size.symm)⟩
    rw [adding,map_cons,HashTable.calls,HashTable.call,if_pos rfl,Function.comp_apply,looked]
    simp only [Ret.ok_bind,Ret.pure_eq]
    rw [← adding,runs]
    rfl

private theorem mzHashSize_room (n : Nat) : 1 ≤ mzHashSize n ∧ 8 * n < 5 * mzHashSize n := by
  unfold mzHashSize LOAD_DENOM LOAD_NUMER
  omega

theorem Fits.small {n : Nat} (fits : Fits n) : mzHashSize n ≤ 2 ^ 28 := by
  obtain ⟨size,table,load⟩ := fits
  unfold mzHashSize LOAD_DENOM LOAD_NUMER at *
  obtain ⟨k,power,enough,_⟩ := roundUpPower2_spec (show 0 < n * 8 / 5 + 1 by omega) (by omega)
  rw [power] at table
  have : k < 29 := (Nat.pow_lt_pow_iff_right (show 1 < 2 by omega)).mp (by omega)
  exact enough.trans (Nat.pow_le_pow_right (by omega) (by omega))

/-- A table made for `n` items takes `n` items with distinct keys and keeps its size, whatever room
    there is for a larger one, so that it does not ask for one; and the rounding is exact. -/
theorem table_takes_items :
    (∀ n, Fits n → ∀ (key : α → K) (H : K → Nat) (cmpFunc : α → α → Int), (∀ a b, cmpFunc a b = 0 ↔ key a = key b) →
      ∀ (calloc later : Nat → Bool) (freeFunc : Bool) (t : HashTable α),
      mzHashTableCreate calloc (mzHashSize n) freeFunc = some t → ∀ xs : List α, xs.length = n → (xs.map key).Nodup →
      ∃ u, t.calls later (H ∘ key) cmpFunc (adding xs) = .ok (added xs, u) ∧ u.tableSize = t.tableSize) ∧
    ∀ v, 1 ≤ v → v ≤ 2 ^ 31 → IsLeast {p | (∃ k, p = 2 ^ k) ∧ v ≤ p} (roundUpPower2 v) := by
  constructor
  · intro n fits key H cmpFunc agrees calloc later freeFunc t created xs length distinct
    obtain ⟨some, room⟩ := mzHashSize_room n
    have small := fits.small
    obtain ⟨k, least, enough, kept, none, fresh⟩ := create_kept key H some (by omega) created
    exact calls_add agrees (least 28 small) kept fresh (by rwa [none, append_nil]) (by rw [none, length_nil]; omega)
  · intro v some small
    obtain ⟨k, power, enough, least⟩ := roundUpPower2_spec some small
    refine ⟨⟨⟨k, power⟩, power ▸ enough⟩, ?_⟩
    rintro p ⟨⟨j, rfl⟩, above⟩
    rw [power]
    exact Nat.pow_le_pow_right (by omega) (least j above)

theorem five_taken : ∃ t : HashTable Nat, mzHashTableCreate allRoom (mzHashSize 5) false = some t ∧
    ∃ u, t.calls (fun _ => false) (id ∘ id) difference (adding [3, 19, 35, 8, 1]) = .ok (added [3, 19, 35, 8, 1], u) ∧
      u.tableSize = t.tableSize :=
  ⟨_, rfl, table_takes_items.1 5 ⟨by decide, by decide, by decide⟩ id id difference
    (fun a b => by simp only [difference, id]; omega) allRoom (fun _ => false) false _ rfl [3, 19, 35, 8, 1] rfl
    (by decide)⟩

end Recovery.HashSizing
