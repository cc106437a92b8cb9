import Mathlib.Data.List.Nodup
import Mathlib.Data.Nat.Find
import Mathlib.Tactic.Common

/-!
Open addressing with linear probing. A table is a cyclic array of slots; an item is looked for from
the slot of its hash on, up to the first empty slot, and removal leaves a tombstone that probes step
over.
-/
namespace Recovery.Probing
open List

inductive Slot (α : Type) where
  | empty
  | tombstone
  | live (hash : Nat) (item : α)
  deriving DecidableEq, Repr

namespace Slot
variable {α : Type}

def item? : Slot α → Option α
  | live _ a => some a
  | _ => none
def isTombstone : Slot α → Bool
  | tombstone => true
  | _ => false
/-- A live slot with this hash and an item that passes the test. -/
def isItem (hash : Nat) (test : α → Bool) : Slot α → Bool
  | live h a => h = hash && test a
  | _ => false

theorem item?_eq_some {s : Slot α} {a : α} (has : s.item? = some a) : ∃ h, s = live h a := by
  cases s with
  | live h b => exact ⟨h,by simpa [item?] using has⟩
  | empty => cases has
  | tombstone => cases has
theorem isItem_iff {hash : Nat} {test : α → Bool} {s : Slot α} :
    s.isItem hash test = true ↔ ∃ a, s = live hash a ∧ test a = true := by
  cases s with
  | live h a => simp [isItem]
  | empty => simp [isItem]
  | tombstone => simp [isItem]

end Slot

section
variable {α : Type}

/-- The slot at an index; past the end of the array there is nothing. -/
def slotAt (t : List (Slot α)) (i : Nat) : Slot α := t.getD i .empty
/-- The probe: from slot to slot until one is empty or stops it. With as many steps as
    there are slots, a probe that has not ended never will. -/
def probe (next : Nat → Nat) (stop : Slot α → Bool) (t : List (Slot α)) : Nat → Nat → Option Nat
  | 0, _ => none
  | steps + 1, i =>
    match slotAt t i with
    | .empty => some i
    | s => if stop s then some i else probe next stop t steps (next i)

def items (t : List (Slot α)) : List α := t.filterMap Slot.item?
def tombstones (t : List (Slot α)) : Nat := t.countP Slot.isTombstone

/-! ## Slots -/

variable {t : List (Slot α)} {h : Nat}

theorem slotAt_set {i : Nat} (inside : i < t.length) (s : Slot α) (j : Nat) :
    slotAt (t.set i s) j = if i = j then s else slotAt t j := by
  simp only [slotAt,getD_eq_getElem?_getD,getElem?_set]
  by_cases same : i = j
  · simp [same,same ▸ inside]
  · simp [same]
theorem slotAt_inside {i : Nat} (used : slotAt t i ≠ .empty) : i < t.length := by
  by_contra outside
  exact used (by simp [slotAt,getD_eq_getElem?_getD,getElem?_eq_none (Nat.le_of_not_lt outside)])
theorem split_at {i : Nat} (inside : i < t.length) :
    t = t.take i ++ slotAt t i :: t.drop (i + 1) := by
  have here : slotAt t i = t[i] := by simp [slotAt,inside]
  rw [here,← drop_eq_getElem_cons inside,take_append_drop]
theorem set_split {i : Nat} (inside : i < t.length) (s : Slot α) :
    t.set i s = t.take i ++ s :: t.drop (i + 1) := by
  rw [set_eq_take_append_cons_drop,if_pos inside]
theorem mem_items {a : α} : a ∈ items t ↔ ∃ i h, slotAt t i = .live h a := by
  unfold items
  rw [mem_filterMap]
  constructor
  · rintro ⟨s,member,has⟩
    obtain ⟨h,rfl⟩ := Slot.item?_eq_some has
    obtain ⟨i,inside,here⟩ := getElem_of_mem member
    exact ⟨i,h,by simp [slotAt,inside,here]⟩
  · rintro ⟨i,h,here⟩
    have inside := slotAt_inside (by rw [here]; simp : slotAt t i ≠ .empty)
    refine ⟨.live h a,?_,rfl⟩
    rw [split_at inside,here]
    simp

theorem items_set_live {i : Nat} (inside : i < t.length) (vacant : (slotAt t i).item? = none) (h : Nat)
    (a : α) : (items (t.set i (.live h a))).Perm (a :: items t) := by
  have before : items t = items (t.take i) ++ items (t.drop (i + 1)) := by
    conv_lhs => rw [split_at inside]
    simp [items,vacant]
  have after : items (t.set i (.live h a)) = items (t.take i) ++ a :: items (t.drop (i + 1)) := by
    rw [set_split inside]
    simp [items,Slot.item?]
  rw [before,after]
  exact perm_middle
theorem items_set_dead {i : Nat} {a : α} (here : slotAt t i = .live h a) {s : Slot α}
    (dead : s.item? = none) : (items t).Perm (a :: items (t.set i s)) := by
  have inside := slotAt_inside (by rw [here]; simp : slotAt t i ≠ .empty)
  have before : items t = items (t.take i) ++ a :: items (t.drop (i + 1)) := by
    conv_lhs => rw [split_at inside,here]
    simp [items,Slot.item?]
  have after : items (t.set i s) = items (t.take i) ++ items (t.drop (i + 1)) := by
    rw [set_split inside]
    simp [items,dead]
  rw [before,after]
  exact perm_middle
theorem tombstones_set {i : Nat} (inside : i < t.length) (s : Slot α) :
    tombstones (t.set i s) + (if (slotAt t i).isTombstone then 1 else 0) =
      tombstones t + (if s.isTombstone then 1 else 0) := by
  have before : tombstones t = tombstones (t.take i) + (if (slotAt t i).isTombstone then 1 else 0) +
      tombstones (t.drop (i + 1)) := by
    conv_lhs => rw [split_at inside]
    simp [tombstones,countP_append,countP_cons]
    omega
  have after : tombstones (t.set i s) = tombstones (t.take i) + (if s.isTombstone then 1 else 0) +
      tombstones (t.drop (i + 1)) := by
    rw [set_split inside]
    simp [tombstones,countP_append,countP_cons]
    omega
  omega

theorem exists_empty (room : (items t).length + tombstones t < t.length) :
    ∃ i < t.length, slotAt t i = .empty := by
  by_contra full
  have all : ∀ s ∈ t, s ≠ .empty := by
    intro s member vacant
    obtain ⟨i,inside,here⟩ := getElem_of_mem member
    exact full ⟨i,inside,by simp [slotAt,inside,here,vacant]⟩
  have count : (items t).length + tombstones t = t.length := by
    clear room full
    induction t with
    | nil => rfl
    | cons s rest ih =>
      have later := ih fun s member => all s (mem_cons_of_mem _ member)
      have here := all s mem_cons_self
      cases s with
      | empty => exact absurd rfl here
      | tombstone =>
        simp only [items,tombstones,filterMap_cons,countP_cons,Slot.item?,Slot.isTombstone,
          length_cons,if_true] at later ⊢
        omega
      | live h a =>
        simp only [items,tombstones,filterMap_cons,countP_cons,Slot.item?,Slot.isTombstone,
          length_cons] at later ⊢
        simp only [Bool.false_eq_true,if_false]
        omega
  omega

@[simp] theorem slotAt_replicate (n i : Nat) : slotAt (List.replicate n (.empty : Slot α)) i = .empty := by
  simp [slotAt,getD_eq_getElem?_getD,getElem?_replicate]
  split <;> rfl
@[simp] theorem items_replicate (n : Nat) : items (List.replicate n (.empty : Slot α)) = [] := by
  simp [items,Slot.item?]
@[simp] theorem tombstones_replicate (n : Nat) : tombstones (List.replicate n (.empty : Slot α)) = 0 := by
  simp [tombstones,countP_replicate,Slot.isTombstone]

/-! ## Probes -/

/-- The walk goes round the table. -/
def Cyclic (next : Nat → Nat) (n : Nat) : Prop := 1 < n → ∀ i < n, next i = (i + 1) % n

variable {next : Nat → Nat} {stop : Slot α → Bool} {t : List (Slot α)}

theorem probe_reaches (cyclic : Cyclic next t.length) {d : Nat} (short : d < t.length) {start steps : Nat} (enough : d < steps)
    (before : ∀ e < d, slotAt t ((start + e) % t.length) ≠ .empty ∧ stop (slotAt t ((start + e) % t.length)) = false)
    (here : slotAt t ((start + d) % t.length) = .empty ∨ stop (slotAt t ((start + d) % t.length)) = true) :
    probe next stop t steps (start % t.length) = some ((start + d) % t.length) := by
  induction d generalizing start steps with
  | zero =>
    obtain ⟨steps,rfl⟩ : ∃ m, steps = m + 1 := ⟨steps - 1,by omega⟩
    simp only [Nat.add_zero] at here ⊢
    unfold probe
    rcases here with vacant | stops
    · rw [vacant]
    · split
      · rfl
      · rw [if_pos stops]
  | succ d ih =>
    obtain ⟨steps,rfl⟩ : ∃ m, steps = m + 1 := ⟨steps - 1,by omega⟩
    obtain ⟨used,passes⟩ := before 0 (by omega)
    rw [Nat.add_zero] at used passes
    have on : next (start % t.length) = (start + 1) % t.length := by
      rw [cyclic (by omega) _ (Nat.mod_lt _ (by omega)),Nat.mod_add_mod]
    have rest : probe next stop t steps ((start + 1) % t.length) = some ((start + 1 + d) % t.length) := ih (by omega) (by omega)
      (fun e below => by
        have := before (e + 1) (by omega)
        rwa [show start + (e + 1) = start + 1 + e by omega] at this)
      (by rwa [show start + (d + 1) = start + 1 + d by omega] at here)
    unfold probe
    split
    · contradiction
    · rw [if_neg (by simp [passes]),on,rest]
      congr 2
      omega

theorem probe_ends (cyclic : Cyclic next t.length) (hole : ∃ i < t.length, slotAt t i = .empty) (start : Nat) :
    ∃ d < t.length, probe next stop t t.length (start % t.length) = some ((start + d) % t.length) ∧
      (slotAt t ((start + d) % t.length) = .empty ∨ stop (slotAt t ((start + d) % t.length)) = true) ∧
      ∀ e < d, slotAt t ((start + e) % t.length) ≠ .empty ∧ stop (slotAt t ((start + e) % t.length)) = false := by
  classical
  obtain ⟨i,inside,vacant⟩ := hole
  let halts d := slotAt t ((start + d) % t.length) = .empty ∨ stop (slotAt t ((start + d) % t.length)) = true
  have home : start % t.length < t.length := Nat.mod_lt _ (by omega)
  have there : (start + (i + t.length - start % t.length) % t.length) % t.length = i := by
    rw [Nat.add_mod_mod,Nat.add_mod,Nat.add_mod_mod,← Nat.mod_add_mod,
      show start % t.length % t.length + (i + t.length - start % t.length) = i + t.length by
        rw [Nat.mod_mod]; omega,Nat.add_mod_right,Nat.mod_eq_of_lt inside]
  have some : ∃ d, halts d := ⟨_,.inl (by rw [there]; exact vacant)⟩
  have short : Nat.find some < t.length :=
    Nat.lt_of_le_of_lt (Nat.find_min' some (.inl (by rw [there]; exact vacant))) (Nat.mod_lt _ (by omega))
  have before e (below : e < Nat.find some) := Nat.find_min some below
  have before e (below : e < Nat.find some) : slotAt t ((start + e) % t.length) ≠ .empty ∧
      stop (slotAt t ((start + e) % t.length)) = false := by
    have := before e below
    simpa [halts] using this
  exact ⟨_,short,probe_reaches cyclic short short before (Nat.find_spec some),Nat.find_spec some,before⟩

/-! ## Sound tables -/

variable {K : Type} {key : α → K} {H : K → Nat}

/-- A slot that is reached from the slot of a hash over used slots. -/
def Reached (t : List (Slot α)) (h i : Nat) : Prop :=
  ∃ d < t.length, i = (h + d) % t.length ∧ ∀ e < d, slotAt t ((h + e) % t.length) ≠ .empty

/-- Every item is reached from the slot of its hash, and no two items have the same key. -/
structure Sound (key : α → K) (H : K → Nat) (t : List (Slot α)) : Prop where
  hashed : ∀ {i h a}, slotAt t i = .live h a → h = H (key a)
  chained : ∀ {i h a}, slotAt t i = .live h a → Reached t h i
  distinct : ((items t).map key).Nodup

theorem Reached.mono {u : List (Slot α)} (size : u.length = t.length) (used : ∀ i, slotAt t i ≠ .empty → slotAt u i ≠ .empty)
    {i : Nat} (reached : Reached t h i) : Reached u h i := by
  obtain ⟨d,short,place,chain⟩ := reached
  exact ⟨d,by omega,by rw [size]; exact place,fun e below => by rw [size]; exact used _ (chain e below)⟩

theorem same_slot (distinct : ((items t).map key).Nodup) {i j k : Nat} {a b : α} (first : slotAt t i = .live h a)
    (second : slotAt t j = .live k b) (same : key a = key b) : i = j := by
  -- the later of two slots is in the rest of the table after the earlier one
  have later {i j h k : Nat} {a b : α} (first : slotAt t i = .live h a) (second : slotAt t j = .live k b)
      (same : key a = key b) : ¬ i < j := by
    intro below
    have inside := slotAt_inside (by rw [first]; simp : slotAt t i ≠ .empty)
    have member : b ∈ items (t.drop (i + 1)) := by
      refine mem_items.mpr ⟨j - (i + 1),k,?_⟩
      rw [← second]
      simp only [slotAt,getD_eq_getElem?_getD,getElem?_drop]
      congr 2
      omega
    rw [split_at inside,first] at distinct
    simp only [items,filterMap_append,filterMap_cons,Slot.item?,map_append,map_cons] at distinct
    refine (nodup_cons.mp (nodup_append.mp distinct).2.1).1 ?_
    rw [same]
    exact mem_map_of_mem member
  have := later first second same
  have := later second first same.symm
  omega

/-- A probe from the slot of a key's hash finds the wanted item of that key, or an empty
    slot where it may be put. -/
theorem Sound.probe_wanted (sound : Sound key H t) (cyclic : Cyclic next t.length) (hole : ∃ i < t.length, slotAt t i = .empty)
    (k : K) (stop : Slot α → Bool) (wanted : α → Prop) (keyed : ∀ a, wanted a → key a = k)
    (stops : ∀ i, stop (slotAt t i) = true ↔ ∃ h a, slotAt t i = .live h a ∧ wanted a) :
    ∃ i < t.length, probe next stop t t.length (H k % t.length) = some i ∧
      ((∃ a, slotAt t i = .live (H k) a ∧ wanted a) ∨
        (slotAt t i = .empty ∧ (∀ a ∈ items t, ¬ wanted a) ∧ Reached t (H k) i)) := by
  have filled : 0 < t.length := by
    obtain ⟨i,inside,-⟩ := hole
    omega
  obtain ⟨d,short,ends,halts,before⟩ := probe_ends cyclic hole (H k)
  refine ⟨_,Nat.mod_lt _ filled,ends,?_⟩
  by_cases vacant : slotAt t ((H k + d) % t.length) = .empty
  · refine .inr ⟨vacant,fun a member want => ?_,d,short,rfl,fun e below => (before e below).1⟩
    -- an item of the key would have stopped the probe before the empty slot
    obtain ⟨i,h,here⟩ := mem_items.mp member
    obtain ⟨e,eShort,place,chain⟩ := sound.chained here
    rw [sound.hashed here,keyed a want] at place chain
    rcases Nat.lt_trichotomy e d with less | rfl | more
    · have := (before e less).2
      rw [← place,Bool.eq_false_iff] at this
      exact this ((stops i).mpr ⟨h,a,here,want⟩)
    · rw [← place,here] at vacant
      cases vacant
    · exact chain d more vacant
  · obtain ⟨h,a,here,want⟩ := (stops _).mp (halts.resolve_left vacant)
    refine .inl ⟨a,?_,want⟩
    rw [here,sound.hashed here,keyed a want]

theorem Sound.add (sound : Sound key H t) {i : Nat} {a : α} (inside : i < t.length) (vacant : slotAt t i = .empty)
    (reached : Reached t (H (key a)) i) (new : ∀ b ∈ items t, key b ≠ key a) :
    Sound key H (t.set i (.live (H (key a)) a)) := by
  have used j (full : slotAt t j ≠ .empty) : slotAt (t.set i (.live (H (key a)) a)) j ≠ .empty := by
    rw [slotAt_set inside]
    split
    · simp
    · exact full
  refine ⟨fun {j h b} here => ?_,fun {j h b} here => ?_,?_⟩
  · rw [slotAt_set inside] at here
    split at here
    · cases here
      rfl
    · exact sound.hashed here
  · rw [slotAt_set inside] at here
    split at here
    · rename_i same
      cases here
      exact same ▸ reached.mono (by simp) used
    · exact (sound.chained here).mono (by simp) used
  · rw [((items_set_live inside (by rw [vacant]; rfl) _ a).map key).nodup_iff,map_cons,nodup_cons]
    refine ⟨fun member => ?_,sound.distinct⟩
    obtain ⟨b,known,same⟩ := mem_map.mp member
    exact new b known same

theorem Sound.bury (sound : Sound key H t) {i : Nat} {a : α} (here : slotAt t i = .live h a) :
    Sound key H (t.set i .tombstone) := by
  have inside := slotAt_inside (by rw [here]; simp : slotAt t i ≠ .empty)
  have used j (full : slotAt t j ≠ .empty) : slotAt (t.set i .tombstone) j ≠ .empty := by
    rw [slotAt_set inside]
    split
    · simp
    · exact full
  have still {j k : Nat} {b : α} (there : slotAt (t.set i .tombstone) j = .live k b) : slotAt t j = .live k b := by
    rw [slotAt_set inside] at there
    split at there
    · cases there
    · exact there
  refine ⟨fun there => sound.hashed (still there),fun there => (sound.chained (still there)).mono (by simp) used,?_⟩
  have := sound.distinct
  rw [((items_set_dead here (s := .tombstone) rfl).map key).nodup_iff,map_cons,nodup_cons] at this
  exact this.2

theorem sound_replicate (n : Nat) : Sound key H (List.replicate n .empty) :=
  ⟨fun here => by simp at here,fun here => by simp at here,by simp⟩

/-! ## Moving to another table -/

/-- Puts the items of a table into another one, in the order of the slots. -/
def rehash (next home : Nat → Nat) : List (Slot α) → List (Slot α) → Option (List (Slot α))
  | [], new => some new
  | .live h a :: old, new =>
    match probe next (fun _ => false) new new.length (home h) with
    | none => none
    | some i => rehash next home old (new.set i (.live h a))
  | _ :: old, new => rehash next home old new

theorem rehash_spec {home : Nat → Nat} {n : Nat} (cyclic : Cyclic next n) (homes : ∀ h, home h = h % n) {old new : List (Slot α)}
    (size : new.length = n) (sound : Sound key H new) (hashed : ∀ h a, Slot.live h a ∈ old → h = H (key a))
    (distinct : ((items new ++ items old).map key).Nodup) (room : (items new).length + tombstones new + (items old).length ≤ n) :
    ∃ t, rehash next home old new = some t ∧ t.length = n ∧ Sound key H t ∧ tombstones t = tombstones new ∧
      (items t).Perm (items new ++ items old) := by
  induction old generalizing new with
  | nil => exact ⟨new,rfl,size,sound,rfl,by simp [items]⟩
  | cons s old ih =>
    cases s with
    | empty => exact ih size sound (fun h a member => hashed h a (mem_cons_of_mem _ member)) distinct room
    | tombstone => exact ih size sound (fun h a member => hashed h a (mem_cons_of_mem _ member)) distinct room
    | live h a =>
      have listed : items (.live h a :: old) = a :: items old := rfl
      rw [listed] at distinct room
      rw [length_cons] at room
      have new' : ∀ b ∈ items new, key b ≠ key a := by
        intro b member same
        rw [map_append,map_cons] at distinct
        exact (nodup_append.mp distinct).2.2 _ (mem_map_of_mem member) _ mem_cons_self same
      obtain ⟨i,inside,ends,found⟩ := sound.probe_wanted (size.symm ▸ cyclic) (exists_empty (by omega))
        (key a) (fun _ => false) (fun _ => False) (fun _ false => false.elim) (by simp)
      obtain ⟨vacant,-,reached⟩ := found.resolve_left (by simp)
      obtain rfl : h = H (key a) := hashed h a mem_cons_self
      have added := items_set_live inside (by rw [vacant]; rfl) (H (key a)) a
      have marks := tombstones_set inside (.live (H (key a)) a)
      rw [vacant] at marks
      simp only [Slot.isTombstone,Bool.false_eq_true,if_false,Nat.add_zero] at marks
      obtain ⟨t,moved,length,sound',same,perm⟩ := ih (by rw [length_set,size])
        (sound.add inside vacant reached new') (fun k b member => hashed k b (mem_cons_of_mem _ member))
        (((((added.append_right _).trans perm_middle.symm).map key).nodup_iff).mpr distinct)
        (by rw [added.length_eq,length_cons]; omega)
      refine ⟨t,?_,length,sound',by omega,perm.trans ((added.append_right _).trans perm_middle.symm)⟩
      rw [rehash,homes,← size,ends]
      exact moved

end

end Recovery.Probing
