import Recovery.Hash

/-!
Every sequence of calls on minzip's hash table does what it does on a finite map.
-/
namespace Recovery.HashCalls
open Memory Probing Hash

/-! ## Powers of two -/

/-- Bits that are set wherever one of the `n` bits from there on is. -/
def Covers (n x y : Nat) : Prop := ∀ j, y.testBit j = true ↔ ∃ d < n, x.testBit (j + d) = true

private theorem covers_self (x : Nat) : Covers 1 x x :=
  fun j => ⟨fun set => ⟨0,by omega,set⟩,fun ⟨d,below,set⟩ => by
    obtain rfl : d = 0 := by omega
    exact set⟩
theorem Covers.spread {n x y : Nat} (covers : Covers n x y) : Covers (n + n) x (y ||| y >>> n) := by
  intro j
  rw [Nat.testBit_or,Nat.testBit_shiftRight,Bool.or_eq_true,covers,covers]
  constructor
  · rintro (⟨d,below,set⟩ | ⟨d,below,set⟩)
    · exact ⟨d,by omega,set⟩
    · exact ⟨n + d,by omega,by rwa [show j + (n + d) = n + j + d by omega]⟩
  · rintro ⟨d,below,set⟩
    by_cases low : d < n
    · exact .inl ⟨d,low,set⟩
    · exact .inr ⟨d - n,by omega,by rwa [show n + j + (d - n) = j + d by omega]⟩
private theorem covers_log {x y : Nat} (covers : Covers 32 x y) (some : x ≠ 0) (small : x < 2 ^ 32) : y = 2 ^ (x.log2 + 1) - 1 := by
  have top : x.log2 < 32 := (Nat.log2_lt some).mpr small
  refine Nat.eq_of_testBit_eq fun j => ?_
  rw [Nat.testBit_two_pow_sub_one,Bool.eq_iff_iff,covers j,decide_eq_true_iff]
  constructor
  · rintro ⟨d,-,set⟩
    by_contra high
    have beyond : x < 2 ^ (j + d) :=
      lt_of_lt_of_le Nat.lt_log2_self (Nat.pow_le_pow_right (by omega) (by omega))
    rw [Nat.testBit_lt_two_pow beyond] at set
    cases set
  · intro low
    exact ⟨x.log2 - j,by omega,by rw [show j + (x.log2 - j) = x.log2 by omega]; exact Nat.testBit_log2 some⟩

theorem roundUpPower2_spec {val : Nat} (some : 0 < val) (small : val ≤ 2 ^ 31) :
    ∃ k, roundUpPower2 val = 2 ^ k ∧ val ≤ 2 ^ k ∧ ∀ j, val ≤ 2 ^ j → k ≤ j := by
  obtain ⟨x,rfl⟩ : ∃ x, val = x + 1 := ⟨val - 1,by omega⟩
  have start : unsigned 32 ((x + 1 : Nat) - 1 : Int) = x := by
    rw [show ((x + 1 : Nat) - 1 : Int) = (x : Int) by omega]
    exact unsigned_small (by omega)
  unfold roundUpPower2
  rw [start]
  dsimp only
  by_cases zero : x = 0
  · exact ⟨0,by subst zero; rfl,by omega,by omega⟩
  have covers := (((((covers_self x).spread).spread).spread).spread).spread
  have top : x.log2 < 31 := (Nat.log2_lt zero).mpr (by omega)
  rw [covers_log covers zero (by omega)]
  refine ⟨x.log2 + 1,?_,Nat.lt_log2_self,fun j enough => (Nat.log2_lt zero).mpr enough⟩
  rw [Nat.sub_add_cancel Nat.one_le_two_pow]
  exact unsigned_small (Nat.pow_lt_pow_right (by omega) (by omega))

theorem mask_eq_mod {k : Nat} (small : k ≤ 30) (h : Nat) : h &&& unsigned 32 ((2 ^ k : Int) - 1) = h % 2 ^ k := by
  have mask : ((2 ^ k : Int) - 1) = ((2 ^ k - 1 : Nat) : Int) := by
    simp
  have below : 2 ^ k ≤ 2 ^ 30 := Nat.pow_le_pow_right (by omega) small
  rw [mask,unsigned_small (by omega),Nat.and_two_pow_sub_one_eq_mod]
private theorem cyclic_mask {k : Nat} (small : k ≤ 30) : Cyclic (fun i => (i + 1) &&& unsigned 32 ((2 ^ k : Int) - 1)) (2 ^ k) :=
  fun _ i _ => mask_eq_mod small (i + 1)
private theorem cyclic_advance (k : Nat) : Cyclic (advance (2 ^ k)) (2 ^ k) := by
  intro some i inside
  unfold advance
  have single : (2 ^ k : Int) ≠ 1 := by exact_mod_cast ne_of_gt some
  by_cases last : i + 1 = 2 ^ k
  · rw [if_pos (by exact_mod_cast last),if_neg single,last,Nat.mod_self]
  · rw [if_neg (by exact_mod_cast last),Nat.mod_eq_of_lt (by omega)]

/-! ## The table between calls -/

section
variable {α β K : Type} {key : α → K} {H : K → Nat} {calloc : Nat → Bool} {t : HashTable α} {k : Nat} {e d : Nat}

/-- A sound table of `2 ^ k` slots whose numbers count them. -/
structure Filled (key : α → K) (H : K → Nat) (t : HashTable α) (k : Nat) : Prop where
  small : k ≤ 30
  length : t.pEntries.length = 2 ^ k
  size : t.tableSize = 2 ^ k
  entries : t.numEntries = ((items t.pEntries).length : Int)
  dead : t.numDeadEntries = (tombstones t.pEntries : Int)
  sound : Sound key H t.pEntries
/-- The load is bounded, also where the products in the source's test of it overflow. -/
structure Kept (key : α → K) (H : K → Nat) (t : HashTable α) (k : Nat) : Prop extends Filled key H t k where
  light : 8 * ((items t.pEntries).length + tombstones t.pEntries) ≤ 5 * 2 ^ k
  bounded : 8 * ((items t.pEntries).length + tombstones t.pEntries) ≤ 5 * 2 ^ 28

theorem Kept.hole (kept : Kept key H t k) : ∃ i < t.pEntries.length, slotAt t.pEntries i = .empty := by
  refine exists_empty ?_
  have light := kept.light
  have some : 0 < 2 ^ k := Nat.two_pow_pos k
  rw [kept.length]
  omega
theorem Kept.positive (kept : Kept key H t k) : 0 < t.tableSize := by
  rw [kept.size]
  exact_mod_cast Nat.two_pow_pos k
theorem assert_holds {holds : Bool} (yes : holds = true) : assert holds = .ok () := by
  rw [yes]
  rfl

theorem Kept.probes (kept : Kept key H t k) (of : K) (stop : Slot α → Bool) (wanted : α → Prop)
    (keyed : ∀ a, wanted a → key a = of)
    (stops : ∀ i, stop (slotAt t.pEntries i) = true ↔ ∃ h a, slotAt t.pEntries i = .live h a ∧ wanted a) :
    ∃ i < t.pEntries.length, probe (advance t.tableSize) stop t.pEntries t.pEntries.length
        (H of &&& unsigned 32 (t.tableSize - 1)) = some i ∧
      ((∃ a, slotAt t.pEntries i = .live (H of) a ∧ wanted a) ∨
        (slotAt t.pEntries i = .empty ∧ (∀ a ∈ items t.pEntries, ¬ wanted a) ∧ Reached t.pEntries (H of) i)) := by
  rw [kept.size,mask_eq_mod kept.small,← kept.length]
  have cyclic : Cyclic (advance (2 ^ k)) t.pEntries.length := by
    rw [kept.length]
    exact cyclic_advance k
  exact kept.sound.probe_wanted cyclic kept.hole of stop wanted keyed stops

private theorem isItem_stops (sound : Sound key H t.pEntries) {of : K} {test : α → Bool}
    (tests : ∀ a ∈ items t.pEntries, test a = true ↔ key a = of) (i : Nat) :
    (slotAt t.pEntries i).isItem (H of) test = true ↔
      ∃ h a, slotAt t.pEntries i = .live h a ∧ a ∈ items t.pEntries ∧ key a = of := by
  rw [Slot.isItem_iff]
  constructor
  · rintro ⟨a,here,passes⟩
    have member := mem_items.mpr ⟨i,_,here⟩
    exact ⟨_,a,here,member,(tests a member).mp passes⟩
  · rintro ⟨h,a,here,member,same⟩
    rw [sound.hashed here,same] at here
    exact ⟨a,here,(tests a member).mpr same⟩

theorem item_stops [DecidableEq α] (a : α) (i : Nat) : decide ((slotAt t.pEntries i).item? = some a) = true ↔
    ∃ h b, slotAt t.pEntries i = .live h b ∧ b = a := by
  rw [decide_eq_true_iff]
  constructor
  · intro has
    obtain ⟨h,here⟩ := Slot.item?_eq_some has
    exact ⟨h,a,here,rfl⟩
  · rintro ⟨h,b,here,rfl⟩
    rw [here]
    rfl

/-! ## Lookup -/

section
variable {of : K} {item : β} {cmpFunc : α → β → Int} (kept : Kept key H t k)
  (compares : ∀ a ∈ items t.pEntries, cmpFunc a item = 0 ↔ key a = of)
include kept compares

theorem lookup_probes : ∃ i < t.pEntries.length,
    probe (advance t.tableSize) (Slot.isItem (H of) fun data => cmpFunc data item = 0) t.pEntries t.pEntries.length
        (H of &&& unsigned 32 (t.tableSize - 1)) = some i ∧
      ((∃ a ∈ items t.pEntries, slotAt t.pEntries i = .live (H of) a ∧ key a = of) ∨
        (slotAt t.pEntries i = .empty ∧ (∀ a ∈ items t.pEntries, key a ≠ of) ∧ Reached t.pEntries (H of) i)) := by
  obtain ⟨i,inside,ends,found⟩ := kept.probes of (Slot.isItem (H of) fun data => cmpFunc data item = 0)
    (fun a => a ∈ items t.pEntries ∧ key a = of) (fun a both => both.2) (isItem_stops kept.sound fun a member => by simpa using compares a member)
  refine ⟨i,inside,ends,found.imp ?_ ?_⟩
  · rintro ⟨a,here,member,same⟩
    exact ⟨a,member,here,same⟩
  · simp

theorem lookup_known {a : α} (member : a ∈ items t.pEntries) (same : key a = of) (doAdd : Option α) :
    mzHashTableLookup calloc t (H of) item cmpFunc doAdd = .ok (some a, t) := by
  obtain ⟨i,-,ends,⟨b,known,here,equal⟩ | ⟨-,none,-⟩⟩ := lookup_probes kept compares
  · obtain ⟨j,h,there⟩ := mem_items.mp member
    obtain rfl : i = j := same_slot kept.sound.distinct here there (equal.trans same.symm)
    rw [here] at there
    cases there
    unfold mzHashTableLookup
    rw [assert_holds (by simpa using kept.positive),ends]
    simp only [Ret.ok_bind,Ret.need_some,here,Ret.pure_eq]
  · exact absurd same (none a member)
theorem lookup_unknown (none : ∀ a ∈ items t.pEntries, key a ≠ of) :
    mzHashTableLookup calloc t (H of) item cmpFunc .none = .ok (.none, t) := by
  obtain ⟨i,-,ends,⟨b,known,-,equal⟩ | ⟨vacant,-,-⟩⟩ := lookup_probes kept compares
  · exact absurd equal (none b known)
  · unfold mzHashTableLookup
    rw [assert_holds (by simpa using kept.positive),ends]
    simp only [Ret.ok_bind,Ret.need_some,vacant,Ret.pure_eq]

end

/-! ## Adding -/

theorem wrap_nat {n : Nat} (small : n < 2 ^ 31) : wrap 32 (n : Int) = n := wrap_small (by omega) (by omega)

def crowded (entries dead size : Int) : Prop := wrap 32 (wrap 32 (entries + dead) * LOAD_DENOM) > wrap 32 (size * LOAD_NUMER)

theorem load_exact (bounded : 8 * (e + d) ≤ 5 * 2 ^ 28) :
    wrap 32 (wrap 32 ((e + 1 : Nat) + d) * LOAD_DENOM) = (8 * (e + 1 + d) : Nat) := by
  have sum : wrap 32 (((e + 1 : Nat) : Int) + d) = (e + 1 + d : Nat) := wrap_small (by omega) (by omega)
  have product : (((e + 1 + d : Nat) : Int) * LOAD_DENOM) = (8 * (e + 1 + d) : Nat) := by unfold LOAD_DENOM; omega
  rw [sum,product]
  exact wrap_small (by omega) (by omega)
theorem crowded_small (small : k ≤ 28) (bounded : 8 * (e + d) ≤ 5 * 2 ^ 28) :
    crowded (e + 1 : Nat) d (2 ^ k) ↔ 5 * 2 ^ k < 8 * (e + 1 + d) := by
  have power : 2 ^ k ≤ 2 ^ 28 := Nat.pow_le_pow_right (by omega) small
  have product : wrap 32 ((2 ^ k : Int) * LOAD_NUMER) = (5 * 2 ^ k : Nat) := by
    rw [show ((2 ^ k : Int) * LOAD_NUMER) = (5 * 2 ^ k : Nat) by unfold LOAD_NUMER; push_cast; omega]
    exact wrap_small (by omega) (by omega)
  rw [crowded,load_exact bounded,product]
  exact Int.ofNat_lt
private theorem crowded_overflows (bounded : 8 * (e + d) ≤ 5 * 2 ^ 28) : crowded (e + 1 : Nat) d (2 ^ 29) := by
  rw [crowded,load_exact bounded,show wrap 32 (2 ^ 29 * (LOAD_NUMER : Int)) = -1610612736 by decide]
  omega
theorem crowded_wraps (bounded : 8 * (e + d) ≤ 5 * 2 ^ 28) :
    crowded (e + 1 : Nat) d (2 ^ 30) ↔ 2 ^ 30 < 8 * (e + 1 + d) := by
  rw [crowded,load_exact bounded,show wrap 32 (2 ^ 30 * (LOAD_NUMER : Int)) = (2 ^ 30 : Nat) by decide]
  exact Int.ofNat_lt

theorem size_exact (small : k < 64) : unsigned 64 (2 ^ k) = 2 ^ k := by
  have small : 2 ^ k < 2 ^ 64 := Nat.pow_lt_pow_right (by omega) small
  exact_mod_cast unsigned_small small

private theorem resizeHash_grows (filled : Filled key H t k) (next : k < 30) (room : (items t.pEntries).length ≤ 2 ^ k)
    (granted : calloc (unsigned 64 (2 ^ (k + 1))) = true) :
    ∃ u, resizeHash calloc t (2 ^ (k + 1)) = .ok (true, u) ∧ Filled key H u (k + 1) ∧ tombstones u.pEntries = 0 ∧
      (items u.pEntries).Perm (items t.pEntries) := by
  have number : unsigned 64 (2 ^ (k + 1)) = 2 ^ (k + 1) := size_exact (by omega)
  have hashed h a (member : Slot.live h a ∈ t.pEntries) : h = H (key a) := by
    obtain ⟨i,inside,here⟩ := List.getElem_of_mem member
    have here : slotAt t.pEntries i = .live h a := by simp [slotAt,inside,here]
    exact filled.sound.hashed here
  obtain ⟨u,moved,length,sound,none,same⟩ := rehash_spec (cyclic_mask (show k + 1 ≤ 30 by omega))
    (mask_eq_mod (show k + 1 ≤ 30 by omega)) List.length_replicate (sound_replicate _) hashed
    (by simpa using filled.sound.distinct) (by simp only [items_replicate,tombstones_replicate,List.length_nil]; omega)
  rw [tombstones_replicate] at none
  rw [items_replicate,List.nil_append] at same
  refine ⟨{ t with pEntries := u, tableSize := 2 ^ (k + 1), numDeadEntries := 0 },?_,⟨by omega,length,rfl,?_,?_,sound⟩,
    none,same⟩
  · unfold resizeHash
    rw [assert_holds (by simpa using filled.dead.symm),number]
    rw [number] at granted
    simp only [Ret.ok_bind,granted,not_true,if_false,moved,Ret.need_some,none,assert_holds,decide_true,Ret.pure_eq]
  · rw [filled.entries,same.length_eq]
  · rw [none]
    rfl

private theorem double_exact (next : k < 30) : wrap 32 ((2 ^ k : Int) * 2) = 2 ^ (k + 1) := by
  have power : 2 ^ (k + 1) ≤ 2 ^ 30 := Nat.pow_le_pow_right (by omega) next
  have cast : (2 ^ (k + 1) : Int) = (2 ^ (k + 1) : Nat) := by norm_cast
  rw [← Int.pow_succ,cast]
  generalize 2 ^ (k + 1) = p at power
  exact wrap_small (by omega) (by omega)

theorem Kept.assert_room (kept : Kept key H t k) : assert (t.numEntries < t.tableSize) = .ok () := by
  refine assert_holds (decide_eq_true ?_)
  have light := kept.light
  have some : 0 < 2 ^ k := Nat.two_pow_pos k
  rw [kept.entries,kept.size]
  exact_mod_cast show (items t.pEntries).length < 2 ^ k by omega

theorem resizeHash_refused {newSize : Int} (dead : t.numDeadEntries = (tombstones t.pEntries : Int))
    (refused : calloc (unsigned 64 newSize) = false) : resizeHash calloc t newSize = .ok (false, t) := by
  unfold resizeHash
  rw [assert_holds (by simpa using dead.symm)]
  simp [refused]

/-- Room for a number of slots is refused when their size in bytes does not fit. -/
def Refuses (calloc : Nat → Bool) : Prop := ∀ n, 2 ^ 64 ≤ n * 32 → calloc n = false

/-- An insertion leaves the size and the tombstones of a table, or it doubles the table
    and drops the tombstones. -/
def Grown (k dead k' dead' : Nat) : Prop := (k' = k ∧ dead' = dead) ∨ (k' = k + 1 ∧ dead' = 0)

theorem settle_test (filled : Filled key H t k) (entries : (items t.pEntries).length = e + 1)
    (dead : tombstones t.pEntries = d) :
    (wrap 32 (wrap 32 (t.numEntries + t.numDeadEntries) * LOAD_DENOM) > wrap 32 (t.tableSize * LOAD_NUMER)) =
      crowded (e + 1 : Nat) d (2 ^ k) := by
  rw [crowded,filled.entries,filled.dead,filled.size,entries,dead]

theorem settle_light (filled : Filled key H t k) (entries : (items t.pEntries).length = e + 1)
    (dead : tombstones t.pEntries = d) (bounded : 8 * (e + d) ≤ 5 * 2 ^ 28) (few : ¬ crowded (e + 1 : Nat) d (2 ^ k)) :
    settle calloc t = .ok t ∧ Kept key H t k := by
  have small := filled.small
  have kept : Kept key H t k := by
    refine ⟨filled,?_,?_⟩ <;> rw [entries,dead]
    all_goals
      rcases lt_or_ge 28 k with high | low
      · obtain rfl | rfl : k = 29 ∨ k = 30 := by omega
        · exact absurd (crowded_overflows bounded) few
        · rw [crowded_wraps bounded] at few
          omega
      · rw [crowded_small low bounded] at few
        have power : (2 : Nat) ^ k ≤ 2 ^ 28 := Nat.pow_le_pow_right (by omega) low
        omega
  refine ⟨?_,kept⟩
  unfold settle
  simp only [settle_test filled entries dead,few,if_false,Ret.pure_eq,Ret.ok_bind,kept.assert_room]

theorem settle_spec (refuses : Refuses calloc) (filled : Filled key H t k) (entries : (items t.pEntries).length = e + 1)
    (dead : tombstones t.pEntries = d) (light : 8 * (e + d) ≤ 5 * 2 ^ k) (bounded : 8 * (e + d) ≤ 5 * 2 ^ 28)
    (few : e + 1 < 2 ^ 26) :
    (∃ u j, settle calloc t = .ok u ∧ Kept key H u j ∧ (items u.pEntries).Perm (items t.pEntries) ∧
      Grown k d j (tombstones u.pEntries)) ∨
    (settle calloc t = abort ∧ ((∃ j ≤ 30, calloc (2 ^ j) = false) ∨ 2 ^ 27 < e + 1 + d)) := by
  have small := filled.small
  have test := settle_test filled entries dead
  by_cases full : crowded (e + 1 : Nat) d (2 ^ k)
  · by_cases last : k = 30
    · -- twice the size is negative, and no allocation has so many slots
      subst last
      have newSize : wrap 32 (t.tableSize * 2) = -2147483648 := by
        rw [filled.size]
        decide
      have refused : calloc (unsigned 64 (-2147483648)) = false := refuses _ (by decide)
      rw [crowded_wraps bounded] at full
      refine .inr ⟨?_,.inr (by omega)⟩
      rw [← crowded_wraps bounded] at full
      unfold settle
      simp only [test,full,if_true,newSize,resizeHash_refused filled.dead refused,Ret.ok_bind]
      rfl
    · have some : 0 < 2 ^ k := Nat.two_pow_pos k
      have newSize : wrap 32 (t.tableSize * 2) = 2 ^ (k + 1) := by
        rw [filled.size]
        exact double_exact (by omega)
      have number : unsigned 64 (2 ^ (k + 1)) = 2 ^ (k + 1) := size_exact (by omega)
      cases granted : calloc (unsigned 64 (2 ^ (k + 1))) with
      | false =>
        refine .inr ⟨?_,.inl ⟨k + 1,by omega,number ▸ granted⟩⟩
        unfold settle
        simp only [test,full,if_true,newSize,resizeHash_refused filled.dead granted,Ret.ok_bind]
        rfl
      | true =>
        obtain ⟨u,resized,filled',none,same⟩ := resizeHash_grows filled (by omega) (by omega) granted
        have count : (items u.pEntries).length = e + 1 := by rw [same.length_eq,entries]
        have kept : Kept key H u (k + 1) := by
          refine ⟨filled',?_,?_⟩
          · rcases lt_or_ge 1 (2 ^ k) with many | one <;> omega
          · omega
        refine .inl ⟨u,k + 1,?_,kept,same,.inr ⟨rfl,none⟩⟩
        unfold settle
        simp only [test,full,if_true,newSize,resized,Ret.ok_bind,not_true,if_false,Ret.pure_eq,kept.assert_room]
  · obtain ⟨settled,kept⟩ := settle_light filled entries dead bounded full
    exact .inl ⟨t,k,settled,kept,List.Perm.refl _,.inl ⟨rfl,dead⟩⟩

variable {cmpFunc : α → β → Int} {item : β} {stored : α}

theorem lookup_inserts (kept : Kept key H t k)
    (compares : ∀ a ∈ items t.pEntries, cmpFunc a item = 0 ↔ key a = key stored)
    (new : ∀ a ∈ items t.pEntries, key a ≠ key stored) (few : (items t.pEntries).length + 1 < 2 ^ 31) :
    ∃ u, mzHashTableLookup calloc t (H (key stored)) item cmpFunc (some stored) =
        (do let u ← settle calloc u; pure (some stored, u)) ∧
      Filled key H u k ∧ (items u.pEntries).Perm (stored :: items t.pEntries) ∧
      tombstones u.pEntries = tombstones t.pEntries := by
  obtain ⟨i,inside,ends,⟨b,known,-,equal⟩ | ⟨vacant,-,reached⟩⟩ := lookup_probes kept compares
  · exact absurd equal (new b known)
  let u : HashTable α := { t with
    pEntries := t.pEntries.set i (.live (H (key stored)) stored), numEntries := wrap 32 (t.numEntries + 1) }
  have added : (items u.pEntries).Perm (stored :: items t.pEntries) := items_set_live inside (by rw [vacant]; rfl) _ _
  have marks : tombstones u.pEntries = tombstones t.pEntries := by
    have := tombstones_set inside (.live (H (key stored)) stored)
    simpa [vacant,Slot.isTombstone] using this
  refine ⟨u,?_,⟨kept.small,by rw [List.length_set,kept.length],kept.size,?_,?_,
    kept.sound.add inside vacant reached new⟩,added,marks⟩
  · unfold mzHashTableLookup
    rw [assert_holds (by simpa using kept.positive),ends]
    simp only [Ret.ok_bind,Ret.need_some,vacant]
    rfl
  · have more : t.numEntries + 1 = ((items u.pEntries).length : Int) := by
      rw [kept.entries,added.length_eq,List.length_cons]
      rfl
    exact (congrArg _ more).trans (wrap_nat (by rw [added.length_eq,List.length_cons]; omega))
  · rw [marks,← kept.dead]

theorem lookup_adds (refuses : Refuses calloc) (kept : Kept key H t k)
    (compares : ∀ a ∈ items t.pEntries, cmpFunc a item = 0 ↔ key a = key stored)
    (new : ∀ a ∈ items t.pEntries, key a ≠ key stored) (few : (items t.pEntries).length + 1 < 2 ^ 26) :
    (∃ u j, mzHashTableLookup calloc t (H (key stored)) item cmpFunc (some stored) = .ok (some stored, u) ∧
      Kept key H u j ∧ (items u.pEntries).Perm (stored :: items t.pEntries) ∧
      Grown k (tombstones t.pEntries) j (tombstones u.pEntries)) ∨
    (mzHashTableLookup calloc t (H (key stored)) item cmpFunc (some stored) = abort ∧
      ((∃ j ≤ 30, calloc (2 ^ j) = false) ∨ 2 ^ 27 < (items t.pEntries).length + 1 + tombstones t.pEntries)) := by
  obtain ⟨u,runs,filled,added,marks⟩ := lookup_inserts kept compares new (by omega)
  rw [runs]
  rcases settle_spec refuses filled added.length_eq marks kept.light kept.bounded few with
    ⟨v,j,done,kept',same,grown⟩ | ⟨aborts,refused⟩
  · exact .inl ⟨v,j,by rw [done]; rfl,kept',same.trans added,grown⟩
  · exact .inr ⟨by rw [aborts]; rfl,refused⟩
theorem lookup_adds_light (kept : Kept key H t k) (small : k ≤ 28)
    (compares : ∀ a ∈ items t.pEntries, cmpFunc a item = 0 ↔ key a = key stored)
    (new : ∀ a ∈ items t.pEntries, key a ≠ key stored)
    (room : 8 * ((items t.pEntries).length + 1 + tombstones t.pEntries) ≤ 5 * 2 ^ k) :
    ∃ u, mzHashTableLookup calloc t (H (key stored)) item cmpFunc (some stored) = .ok (some stored, u) ∧
      Kept key H u k ∧ (items u.pEntries).Perm (stored :: items t.pEntries) ∧
      tombstones u.pEntries = tombstones t.pEntries := by
  have power : (2 : Nat) ^ k ≤ 2 ^ 28 := Nat.pow_le_pow_right (by omega) small
  obtain ⟨u,runs,filled,added,marks⟩ := lookup_inserts kept compares new (by omega)
  obtain ⟨settled,kept'⟩ := settle_light filled added.length_eq marks kept.bounded
    (by rw [crowded_small small kept.bounded]; omega)
  exact ⟨u,by rw [runs,settled]; rfl,kept',added,marks⟩

/-! ## Removing and clearing -/

theorem remove_known [DecidableEq α] (kept : Kept key H t k) {a : α} (member : a ∈ items t.pEntries) :
    ∃ u, mzHashTableRemove t (H (key a)) a = .ok (true, u) ∧ Kept key H u k ∧ (items t.pEntries).Perm (a :: items u.pEntries) ∧
      tombstones u.pEntries = tombstones t.pEntries + 1 := by
  obtain ⟨i,inside,ends,⟨b,here,rfl⟩ | ⟨-,none,-⟩⟩ := kept.probes (key a) (fun s => s.item? = some a) (fun b => b = a)
    (fun b same => by rw [same]) (item_stops a)
  · have taken := items_set_dead here (show (Slot.tombstone : Slot α).item? = none from rfl)
    have count := taken.length_eq
    have marks := tombstones_set inside .tombstone
    rw [here] at marks
    simp only [Slot.isTombstone,Bool.false_eq_true,if_false,if_true,add_zero] at marks
    rw [List.length_cons] at count
    have light := kept.light
    have bounded := kept.bounded
    refine ⟨{ t with
      pEntries := t.pEntries.set i .tombstone
      numEntries := wrap 32 (t.numEntries - 1)
      numDeadEntries := wrap 32 (t.numDeadEntries + 1) },?_,⟨⟨kept.small,?_,kept.size,?_,?_,kept.sound.bury here⟩,?_,?_⟩,taken,marks⟩
    · unfold mzHashTableRemove
      rw [assert_holds (by simpa using kept.positive),ends]
      simp [here]
    · rw [List.length_set,kept.length]
    · have less : t.numEntries - 1 = ((items (t.pEntries.set i .tombstone)).length : Int) := by
        rw [kept.entries]
        omega
      exact (congrArg _ less).trans (wrap_nat (by omega))
    · have more : t.numDeadEntries + 1 = (tombstones (t.pEntries.set i .tombstone) : Int) := by
        rw [kept.dead]
        omega
      exact (congrArg _ more).trans (wrap_nat (by omega))
    · dsimp only
      omega
    · dsimp only
      omega
  · exact absurd rfl (none a member)
theorem remove_unknown [DecidableEq α] (kept : Kept key H t k) {a : α} (none : a ∉ items t.pEntries) :
    mzHashTableRemove t (H (key a)) a = .ok (false, t) := by
  obtain ⟨i,inside,ends,⟨b,here,rfl⟩ | ⟨vacant,-,-⟩⟩ := kept.probes (key a) (fun s => s.item? = some a) (fun b => b = a)
    (fun b same => by rw [same]) (item_stops a)
  · exact absurd (mem_items.mpr ⟨i,_,here⟩) none
  · unfold mzHashTableRemove
    rw [assert_holds (by simpa using kept.positive),ends]
    simp [vacant]

theorem clear_kept (kept : Kept key H t k) : Kept key H (mzHashTableClear t).2 k ∧
    items (mzHashTableClear t).2.pEntries = [] ∧ tombstones (mzHashTableClear t).2.pEntries = 0 := by
  have cleared : (mzHashTableClear t).2.pEntries = List.replicate (2 ^ k) .empty := by
    rw [mzHashTableClear,List.map_const',kept.length]
  refine ⟨⟨⟨kept.small,?_,kept.size,?_,?_,?_⟩,?_,?_⟩,?_,?_⟩
  all_goals rw [cleared]
  · exact List.length_replicate
  · rw [items_replicate]
    rfl
  · rw [tombstones_replicate]
    rfl
  · exact sound_replicate _
  · simp
  · simp
  · exact items_replicate _
  · exact tombstones_replicate _

/-! ## Creation -/

theorem create_kept (key : α → K) (H : K → Nat) {initialSize : Nat} {freeFunc : Bool} (some : 1 ≤ initialSize)
    (small : initialSize ≤ 2 ^ 30) (created : mzHashTableCreate calloc initialSize freeFunc = .some t) :
    ∃ k, (∀ j, initialSize ≤ 2 ^ j → k ≤ j) ∧ initialSize ≤ 2 ^ k ∧ Kept key H t k ∧ items t.pEntries = [] ∧ tombstones t.pEntries = 0 := by
  obtain ⟨k,size,enough,least⟩ := roundUpPower2_spec some (by omega)
  unfold mzHashTableCreate at created
  rw [unsigned_small (by omega),size] at created
  dsimp only at created
  split at created
  · cases created
    refine ⟨k,least,enough,⟨⟨least 30 small,List.length_replicate,by norm_cast,?_,?_,sound_replicate _⟩,?_,?_⟩,items_replicate _,tombstones_replicate _⟩
    all_goals simp
  · cases created

end

/-! ## The finite map -/

section
variable {α K : Type} [DecidableEq K] {key : α → K} {H : K → Nat} {calloc : Nat → Bool} {t u : HashTable α}
  {m : Finmap fun _ : K => α} {k : Nat}

def Means (key : α → K) (t : HashTable α) (m : Finmap fun _ : K => α) : Prop :=
  ∀ k a, m.lookup k = some a ↔ a ∈ items t.pEntries ∧ key a = k

theorem Means.unknown (means : Means key t m) {k : K} (none : m.lookup k = none) : ∀ a ∈ items t.pEntries, key a ≠ k := by
  intro a member same
  rw [(means k a).mpr ⟨member,same⟩] at none
  cases none
theorem Means.insert (means : Means key t m) {a : α} (none : m.lookup (key a) = none)
    (added : (items u.pEntries).Perm (a :: items t.pEntries)) : Means key u (m.insert (key a) a) := by
  intro k b
  rw [added.mem_iff,List.mem_cons]
  by_cases same : k = key a
  · subst same
    rw [Finmap.lookup_insert]
    constructor
    · intro equal
      cases equal
      exact ⟨.inl rfl,rfl⟩
    · rintro ⟨rfl | member,equal⟩
      · rfl
      · exact absurd equal (means.unknown none b member)
  · rw [Finmap.lookup_insert_of_ne _ same,means]
    constructor
    · exact fun both => ⟨.inr both.1,both.2⟩
    · rintro ⟨rfl | member,equal⟩
      · exact absurd equal.symm same
      · exact ⟨member,equal⟩
theorem Means.erase (means : Means key t m) {a : α} (distinct : ((items t.pEntries).map key).Nodup)
    (taken : (items t.pEntries).Perm (a :: items u.pEntries)) : Means key u (m.erase (key a)) := by
  intro k b
  rw [(taken.map key).nodup_iff,List.map_cons,List.nodup_cons] at distinct
  by_cases same : k = key a
  · subst same
    rw [Finmap.lookup_erase]
    constructor
    · intro equal
      cases equal
    · rintro ⟨member,equal⟩
      exact absurd (equal ▸ List.mem_map_of_mem member) distinct.1
  · rw [Finmap.lookup_erase_ne same,means,taken.mem_iff,List.mem_cons]
    constructor
    · rintro ⟨rfl | member,equal⟩
      · exact absurd equal.symm same
      · exact ⟨member,equal⟩
    · exact fun both => ⟨.inr both.1,both.2⟩
theorem keys_insert_card {k : K} (none : m.lookup k = none) (a : α) : (m.insert k a).keys.card = m.keys.card + 1 := by
  have new : k ∉ m.keys := by rwa [Finmap.mem_keys,← Finmap.lookup_eq_none]
  rw [← Finset.card_insert_of_notMem new]
  congr 1
  ext j
  rw [Finmap.mem_keys,Finmap.mem_insert,Finset.mem_insert,Finmap.mem_keys]
theorem Means.card (means : Means key t m) (distinct : ((items t.pEntries).map key).Nodup) :
    m.keys.card = (items t.pEntries).length := by
  have keys : m.keys = ((items t.pEntries).map key).toFinset := by
    ext k
    rw [Finmap.mem_keys,Finmap.mem_iff,List.mem_toFinset,List.mem_map]
    exact exists_congr fun a => means k a
  rw [keys,List.toFinset_card_of_nodup distinct,List.length_map]

/-! ## Whole runs -/

def adds (cs : List (Call α)) : Nat := cs.countP fun
  | .lookup _ doAdd => doAdd
  | _ => false

variable [DecidableEq α] {cmpFunc : α → α → Int}

def load (t : HashTable α) : Nat := (items t.pEntries).length + tombstones t.pEntries

/-- One call does to the table what it does to the map, or `calloc` refuses and the
    process is gone. -/
theorem call_spec (refuses : Refuses calloc) (agrees : ∀ a b, cmpFunc a b = 0 ↔ key a = key b) (kept : Kept key H t k)
    (means : Means key t m) (c : Call α) (few : (mapCall key m c).2.keys.card < 2 ^ 26) :
    (∃ u j, t.call calloc (H ∘ key) cmpFunc c = .ok ((mapCall key m c).1, u) ∧ Kept key H u j ∧
      Means key u (mapCall key m c).2 ∧ load u ≤ load t + adds [c]) ∨
    (t.call calloc (H ∘ key) cmpFunc c = abort ∧ ((∃ j ≤ 30, calloc (2 ^ j) = false) ∨ 2 ^ 27 < load t + adds [c])) := by
  cases c with
  | lookup item doAdd =>
    have compares a (_ : a ∈ items t.pEntries) : cmpFunc a item = 0 ↔ key a = key item := agrees a item
    cases known : m.lookup (key item) with
    | some data =>
      obtain ⟨member,same⟩ := (means _ _).mp known
      refine .inl ⟨t,k,?_,kept,?_,by omega⟩
      · simp [HashTable.call,mapCall,known,lookup_known kept compares member same]
      · simpa [mapCall,known] using means
    | none =>
      cases doAdd with
      | false =>
        refine .inl ⟨t,k,?_,kept,?_,by omega⟩
        · simp [HashTable.call,mapCall,known,lookup_unknown kept compares (means.unknown known)]
        · simpa [mapCall,known] using means
      | true =>
        have after {u : HashTable α} (added : (items u.pEntries).Perm (item :: items t.pEntries)) :
            Means key u (mapCall key m (.lookup item true)).2 := by
          simpa [mapCall,known] using means.insert known added
        have few : (items t.pEntries).length + 1 < 2 ^ 26 := by
          simp only [mapCall,known,if_true] at few
          rwa [keys_insert_card known,means.card kept.sound.distinct] at few
        have one : adds [Call.lookup item true] = 1 := rfl
        rcases lookup_adds refuses kept compares (means.unknown known) few with
          ⟨u,j,done,kept',added,grown⟩ | ⟨aborts,refused⟩
        · refine .inl ⟨u,j,by simp [HashTable.call,mapCall,known,done],kept',after added,?_⟩
          have count := added.length_eq
          rw [List.length_cons] at count
          rw [one,load,load,count]
          rcases grown with ⟨-,same⟩ | ⟨-,none⟩ <;> omega
        · refine .inr ⟨by simp [HashTable.call,aborts,abort],refused.imp_right fun many => ?_⟩
          rw [one,load]
          omega
  | remove item =>
    by_cases known : m.lookup (key item) = some item
    · obtain ⟨u,done,kept',taken,marks⟩ := remove_known kept ((means _ _).mp known).1
      have count := taken.length_eq
      rw [List.length_cons] at count
      refine .inl ⟨u,k,?_,kept',?_,by rw [load,load]; omega⟩
      · simp [HashTable.call,mapCall,known,done]
      · simpa [mapCall,known] using means.erase kept.sound.distinct taken
    · have none : item ∉ items t.pEntries := fun member => known ((means _ _).mpr ⟨member,rfl⟩)
      refine .inl ⟨t,k,?_,kept,?_,by omega⟩
      · simp [HashTable.call,mapCall,known,remove_unknown kept none]
      · simpa [mapCall,known] using means
  | clear =>
    obtain ⟨kept',gone,none⟩ := clear_kept kept
    refine .inl ⟨_,k,rfl,kept',fun k a => ?_,?_⟩
    · simp [mapCall,gone]
    · simp [load,gone,none]

theorem calls_spec (refuses : Refuses calloc) (agrees : ∀ a b, cmpFunc a b = 0 ↔ key a = key b) (cs : List (Call α))
    (kept : Kept key H t k) (means : Means key t m)
    (few : ∀ before, before <+: cs → (mapCalls key m before).2.keys.card < 2 ^ 26) :
    (∃ u j, t.calls calloc (H ∘ key) cmpFunc cs = .ok ((mapCalls key m cs).1, u) ∧ Kept key H u j ∧
      Means key u (mapCalls key m cs).2) ∨
    (t.calls calloc (H ∘ key) cmpFunc cs = abort ∧ ((∃ j ≤ 30, calloc (2 ^ j) = false) ∨ 2 ^ 27 < load t + adds cs)) := by
  induction cs generalizing t m k with
  | nil => exact .inl ⟨t,k,rfl,kept,means⟩
  | cons c rest ih =>
    have one : (mapCall key m c).2.keys.card < 2 ^ 26 := few [c] ⟨rest,rfl⟩
    have total : adds (c :: rest) = adds [c] + adds rest := by
      simp only [adds,List.countP_cons,List.countP_nil]
      omega
    rcases call_spec refuses agrees kept means c one with ⟨u,j,done,kept',means',most⟩ | ⟨aborts,refused⟩
    · rcases ih kept' means' fun before part => few (c :: before) (List.cons_prefix_cons.mpr ⟨rfl,part⟩) with
        ⟨v,j,runs,last⟩ | ⟨aborts,refused⟩
      · exact .inl ⟨v,j,by simp [HashTable.calls,mapCalls,done,runs],last⟩
      · exact .inr ⟨by simp [HashTable.calls,done,aborts,abort],refused.imp_right fun many => by omega⟩
    · exact .inr ⟨by simp [HashTable.calls,aborts,abort],refused.imp_right fun many => by omega⟩

/-- Every sequence of calls on a new table answers as a finite map does, with the same items after it,
    or the process aborts: a larger table was refused, or twice the size of the table is no longer an
    `int`. -/
theorem hash_table_follows_map (calloc : Nat → Bool) (refuses : Refuses calloc) (key : α → K) (H : K → Nat)
    (cmpFunc : α → α → Int) (agrees : ∀ a b, cmpFunc a b = 0 ↔ key a = key b) (initialSize : Nat) (some : 1 ≤ initialSize)
    (small : initialSize ≤ 2 ^ 26) (freeFunc : Bool) (created : mzHashTableCreate calloc initialSize freeFunc = .some t)
    (cs : List (Call α)) (few : ∀ before, before <+: cs → (mapCalls key ∅ before).2.keys.card < 2 ^ 26) :
    (∃ u, t.calls calloc (H ∘ key) cmpFunc cs = .ok ((mapCalls key ∅ cs).1, u) ∧
      (∀ a, a ∈ items u.pEntries ↔ (mapCalls key ∅ cs).2.lookup (key a) = .some a) ∧ (items u.pEntries).Nodup ∧
      u.numEntries = ((items u.pEntries).length : Int) ∧ u.numDeadEntries = (tombstones u.pEntries : Int) ∧
      u.tableSize = (u.pEntries.length : Int) ∧ ∃ i < u.pEntries.length, slotAt u.pEntries i = .empty) ∨
    (t.calls calloc (H ∘ key) cmpFunc cs = abort ∧ ((∃ j ≤ 30, calloc (2 ^ j) = false) ∨ 2 ^ 27 < adds cs)) := by
  obtain ⟨k, -, -, kept, none, unmarked⟩ := create_kept key H some (by omega) created
  have means : Means key t ∅ := fun k a => by simp [none]
  have empty : load t = 0 := by simp [load, none, unmarked]
  have spec := calls_spec refuses agrees cs kept means few
  rw [empty, Nat.zero_add] at spec
  refine spec.imp_left ?_
  rintro ⟨u, j, runs, kept', means'⟩
  refine ⟨u, runs, fun a => ?_, List.Nodup.of_map key kept'.sound.distinct, kept'.entries, kept'.dead, ?_, kept'.hole⟩
  · rw [means']
    exact ⟨fun member => ⟨member, rfl⟩, And.left⟩
  · rw [kept'.size, kept'.length]
    norm_cast

end

def allRoom (n : Nat) : Bool := n * 32 < 2 ^ 64
def difference (a b : Nat) : Int := (a : Int) - b
theorem allRoom_refuses : Refuses allRoom := fun n big => by simpa [allRoom] using big

/-- Two items of one slot, one of them removed and added again, in a table that begins
    with a single slot. -/
def fewCalls : List (Call Nat) := [.lookup 1 true, .lookup 9 true, .remove 1, .lookup 1 false, .lookup 1 true, .lookup 9 false]

theorem hash_table_follows_map_from_one_slot :
    ∃ t, mzHashTableCreate allRoom 1 false = some t ∧
      ∃ u, t.calls allRoom (id ∘ id) difference fewCalls =
        .ok ([.found (some 1), .found (some 9), .removed true, .found none, .found (some 1), .found (some 9)], u) ∧
        ∀ a, a ∈ items u.pEntries ↔ (mapCalls id ∅ fewCalls).2.lookup a = some a := by
  refine ⟨_, rfl, ?_⟩
  have few before (part : before <+: fewCalls) : (mapCalls id ∅ before).2.keys.card < 2 ^ 26 := by
    have all : ∀ before ∈ fewCalls.inits, (mapCalls id ∅ before).2.keys.card < 2 ^ 26 := by decide
    exact all before ((List.mem_inits _ _).mpr part)
  have spec := hash_table_follows_map allRoom allRoom_refuses id id difference
    (fun a b => by simp only [difference, id]; omega) 1 (by decide) (by decide) false rfl fewCalls few
  rcases spec with ⟨u, runs, same, -⟩ | ⟨aborts, -⟩
  · exact ⟨u, runs, same⟩
  · cases aborts

/-! ## Items that come and go -/

def comeAndGo : Nat → List (Call Nat)
  | 0 => []
  | n + 1 => .lookup 1 true :: .remove 1 :: comeAndGo n

theorem comeAndGo_map (n : Nat) {before : List (Call Nat)} (part : before <+: comeAndGo n) :
    (mapCalls id (∅ : Finmap fun _ : Nat => Nat) before).2.keys.card ≤ 1 := by
  induction n generalizing before with
  | zero =>
    obtain rfl := List.prefix_nil.mp part
    decide
  | succ n ih =>
    match before with
    | [] => decide
    | [c] =>
      obtain ⟨rfl,-⟩ := List.cons_prefix_cons.mp part
      decide
    | c :: d :: after =>
      obtain ⟨rfl,later⟩ := List.cons_prefix_cons.mp part
      obtain ⟨rfl,rest⟩ := List.cons_prefix_cons.mp later
      have back : mapCalls id (∅ : Finmap fun _ : Nat => Nat) [.lookup 1 true,.remove 1] =
          ([.found (some 1),.removed true],∅) := by decide
      have again : (mapCalls id (∅ : Finmap fun _ : Nat => Nat) (.lookup 1 true :: .remove 1 :: after)).2 =
          (mapCalls id (mapCalls id (∅ : Finmap fun _ : Nat => Nat) [.lookup 1 true,.remove 1]).2 after).2 := rfl
      rw [again,back]
      exact ih rest

theorem comeAndGo_step {t : HashTable Nat} {k : Nat} (kept : Kept id id t k) (none : items t.pEntries = []) :
    (∃ u j, (∀ n, u.calls allRoom (id ∘ id) difference (comeAndGo n) = abort →
        t.calls allRoom (id ∘ id) difference (comeAndGo (n + 1)) = abort) ∧ Kept id id u j ∧ items u.pEntries = [] ∧
      2 ^ 28 * k + tombstones t.pEntries < 2 ^ 28 * j + tombstones u.pEntries) ∨
    t.calls allRoom (id ∘ id) difference (comeAndGo 1) = abort := by
  have few : tombstones t.pEntries < 2 ^ 28 := by
    have := kept.bounded
    omega
  have compares a (member : a ∈ items t.pEntries) : difference a 1 = 0 ↔ id a = id 1 := by simp [none] at member
  rcases lookup_adds allRoom_refuses kept compares (by simp [none])
    (by simp [none]) with ⟨u,j,done,kept',added,grown⟩ | ⟨aborts,-⟩
  · rw [none] at added
    obtain ⟨v,removed,kept'',taken,marks⟩ := remove_known kept' (added.mem_iff.mpr List.mem_cons_self)
    refine .inl ⟨v,j,fun n aborts => ?_,kept'',?_,?_⟩
    · simp only [id,Function.comp_id] at done removed aborts
      simp [comeAndGo,HashTable.calls,HashTable.call,done,removed,aborts,abort]
    · exact List.perm_nil.mp (List.Perm.cons_inv (taken.symm.trans added))
    · rcases grown with ⟨rfl,same⟩ | ⟨rfl,same⟩ <;> omega
  · refine .inr ?_
    simp only [id] at aborts
    simp [comeAndGo,HashTable.calls,HashTable.call,aborts,abort]

theorem comeAndGo_aborts (left : Nat) {t : HashTable Nat} {k : Nat} (kept : Kept id id t k) (none : items t.pEntries = [])
    (most : 2 ^ 28 * 31 ≤ 2 ^ 28 * k + tombstones t.pEntries + left) :
    ∃ n, t.calls allRoom (id ∘ id) difference (comeAndGo n) = abort := by
  have small := kept.small
  have bounded := kept.bounded
  induction left generalizing t k with
  | zero => omega
  | succ left ih =>
    rcases comeAndGo_step kept none with ⟨u,j,later,kept',none',more⟩ | aborts
    · obtain ⟨n,aborts⟩ := ih kept' none' (by omega) kept'.small kept'.bounded
      exact ⟨n + 1,later n aborts⟩
    · exact ⟨1,aborts⟩

/-- A table that never holds more than one item gives up all the same, with room for every
    table that can be. -/
theorem hash_table_outgrows : ∃ t cs, mzHashTableCreate allRoom 1 false = some t ∧
    (∀ before, before <+: cs → (mapCalls id (∅ : Finmap fun _ : Nat => Nat) before).2.keys.card ≤ 1) ∧
    t.calls allRoom (id ∘ id) difference cs = abort := by
  have created : ∃ t : HashTable Nat, mzHashTableCreate allRoom 1 false = some t := ⟨_, rfl⟩
  obtain ⟨t, created⟩ := created
  obtain ⟨k, -, -, kept, none, -⟩ := create_kept id id (by decide) (by decide) created
  obtain ⟨n, aborts⟩ := comeAndGo_aborts (2 ^ 28 * 31) kept none (by omega)
  exact ⟨t, comeAndGo n, created, fun before => comeAndGo_map n, aborts⟩

end Recovery.HashCalls
