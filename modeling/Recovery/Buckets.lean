import Recovery.Splitting

/-!
The bucket sort by first byte with which `qsufsort` begins. `less old c` bytes are
smaller than `c`; suffix `j` goes to `slot old j`, and index 0 is left to the empty
suffix.
-/
namespace Recovery.Buckets
open Memory Qsufsort Segments Splitting List

/-! ## Counts -/

def less (old : Bytes) (c : Nat) : Nat := old.countP fun b => b.toNat < c

theorem less_zero (old : Bytes) : less old 0 = 0 := by simp [less]
theorem less_full (old : Bytes) : less old 256 = old.length := by
  simp only [less,countP_eq_length]
  exact fun b _ => by simpa using b.toNat_lt
theorem less_succ (old : Bytes) (c : UInt8) : less old (c.toNat + 1) = less old c.toNat + old.count c := by
  induction old with
  | nil => rfl
  | cons b old ih =>
    simp only [less,countP_cons,count_cons] at ih ⊢
    have same : (b == c) = true ↔ b.toNat = c.toNat := by rw [UInt8.toNat_inj,beq_iff_eq]
    simp only [ih,same,decide_eq_true_eq]
    split <;> split <;> split <;> omega
theorem less_mono (old : Bytes) {c d : Nat} (upTo : c ≤ d) : less old c ≤ less old d := by
  refine countP_mono_left fun b _ small => ?_
  simp only [decide_eq_true_eq] at small ⊢
  omega
theorem less_le (old : Bytes) (c : Nat) : less old c ≤ old.length := countP_le_length

/-! ## `fillBuckets` -/

def Holds (buckets : Words) (f : Nat → Int) : Prop := buckets.length = 256 ∧ ∀ c < 256, buckets.getD c 0 = f c

variable {buckets : Words} {f : Nat → Int} {old : Bytes} {j : Nat}

theorem holds_bucketOf (holds : Holds buckets f) (c : UInt8) :
    bucketOf buckets c = f c.toNat :=
  holds.2 _ c.toNat_lt
theorem holds_set (holds : Holds buckets f) {i : Nat} (small : i < 256) (x : Int) :
    Holds (buckets.set i x) fun c => if c = i then x else f c := by
  obtain ⟨size,value⟩ := holds
  refine ⟨by simpa using size,fun c inside => ?_⟩
  by_cases same : c = i
  · subst same
    simp [getD_eq_getElem?_getD,size,small]
  · have := value c inside
    rw [getD_eq_getElem?_getD] at this ⊢
    rw [getElem?_set_ne (Ne.symm same)]
    simpa [same] using this

theorem holds_congr {g : Nat → Int} (holds : Holds buckets f) (same : ∀ c < 256, f c = g c) :
    Holds buckets g :=
  ⟨holds.1,fun c inside => (holds.2 c inside).trans (same c inside)⟩

theorem count_holds (holds : Holds buckets f) (old : Bytes) :
    Holds (old.foldl (fun b c => b.set c.toNat (bucketOf b c + 1)) buckets)
      fun c => f c + old.count (UInt8.ofNat c) := by
  induction old generalizing buckets f with
  | nil => exact holds_congr holds fun c _ => by simp
  | cons b old ih =>
    refine holds_congr (ih (holds_set holds b.toNat_lt _)) fun c inside => ?_
    have value := holds_bucketOf holds b
    by_cases here : c = b.toNat
    · subst here
      simp only [if_true,value,UInt8.ofNat_toNat,count_cons_self]
      omega
    · have other : b ≠ UInt8.ofNat c := by
        rintro rfl
        exact here (UInt8.toNat_ofNat_of_lt' inside).symm
      simp [here,count_cons_of_ne other]

theorem sum_holds (holds : Holds buckets fun c => old.count (UInt8.ofNat c)) {m : Nat}
    (small : m ≤ 255) :
    Holds ((List.range' 1 m).foldl (fun b i => b.set i (b.getD i 0 + b.getD (i - 1) 0)) buckets)
      fun c => if c ≤ m then less old (c + 1) else old.count (UInt8.ofNat c) := by
  induction m with
  | zero =>
    refine holds_congr holds fun c inside => ?_
    by_cases zero : c = 0
    · subst zero
      have := less_succ old 0
      simp only [UInt8.toNat_zero,less_zero] at this
      simp [this]
    · simp [zero]
  | succ m ih =>
    have before := ih (by omega)
    rw [range'_concat,foldl_append]
    simp only [foldl_cons,foldl_nil,one_mul]
    refine holds_congr (holds_set before (show 1 + m < 256 by omega) _) fun c inside => ?_
    by_cases here : c = 1 + m
    · subst here
      have step := less_succ old (UInt8.ofNat (1 + m))
      rw [UInt8.toNat_ofNat_of_lt' inside] at step
      rw [if_pos rfl,if_pos (by omega),before.2 _ inside,before.2 _ (by omega)]
      dsimp only
      rw [if_neg (by omega),if_pos (by omega),step,show 1 + m - 1 + 1 = 1 + m by omega]
      omega
    · by_cases low : c ≤ m
      · rw [if_neg here,if_pos low,if_pos (by omega)]
      · rw [if_neg here,if_neg low,if_neg (by omega)]

theorem shift_holds (holds : Holds buckets f) {m : Nat} (small : m ≤ 255) :
    Holds ((List.range' 1 m).reverse.foldl (fun b i => b.set i (b.getD (i - 1) 0)) buckets)
      fun c => if 1 ≤ c ∧ c ≤ m then f (c - 1) else f c := by
  induction m generalizing buckets f with
  | zero => exact holds_congr holds fun c _ => by rw [if_neg (by omega)]
  | succ m ih =>
    rw [range'_concat,reverse_append]
    simp only [reverse_cons,reverse_nil,nil_append,cons_append,foldl_cons,one_mul]
    refine holds_congr (ih (holds_set holds (show 1 + m < 256 by omega) _) (by omega)) fun c inside => ?_
    rw [holds.2 _ (by omega)]
    by_cases here : c = 1 + m
    · subst here
      rw [if_neg (by omega),if_pos rfl,if_pos (by omega)]
    · by_cases low : 1 ≤ c ∧ c ≤ m
      · rw [if_pos low,if_neg (by omega),if_pos (by omega)]
      · rw [if_neg low,if_neg here,if_neg (by omega)]

theorem fillBuckets_holds (old : Bytes) : Holds (fillBuckets old) fun c => less old c := by
  have zeros : Holds (replicate 256 0) fun _ => 0 :=
    ⟨length_replicate,fun c inside => by rw [getD_eq_getElem?_getD,getElem?_replicate,if_pos inside]; rfl⟩
  have counts := holds_congr (count_holds zeros old) (g := fun c => old.count (UInt8.ofNat c)) fun c _ => by simp
  have shifted := shift_holds (sum_holds counts (le_refl 255)) (le_refl 255)
  refine holds_congr (holds_set shifted (show 0 < 256 by omega) 0) fun c inside => ?_
  by_cases zero : c = 0
  · subst zero
    simp [less_zero]
  · rw [if_neg zero,if_pos (by omega),if_pos (by omega)]
    rw [show c - 1 + 1 = c by omega]

/-! ## The insertion -/

def byteOf (old : Bytes) (j : Nat) : UInt8 := old.getD j 0
/-- Where suffix `j` goes: after those with a smaller first byte and those before it in
    its bucket. -/
def slot (old : Bytes) (j : Nat) : Nat := less old (byteOf old j).toNat + (old.take j).count (byteOf old j) + 1

theorem byteOf_mem (inside : j < old.length) : byteOf old j ∈ old.drop j := by
  rw [drop_eq_getElem_cons inside,byteOf,getD_eq_getElem?_getD,getElem?_eq_getElem inside]
  exact mem_cons_self
theorem byteOf_take {i : Nat} (before : i < j) : byteOf (old.take j) i = byteOf old i := by
  rw [byteOf,byteOf,getD_eq_getElem?_getD,getD_eq_getElem?_getD,getElem?_take_of_lt before]

theorem slot_low (old : Bytes) (j : Nat) : less old (byteOf old j).toNat < slot old j := by
  unfold slot
  omega
theorem slot_high (inside : j < old.length) : slot old j ≤ less old ((byteOf old j).toNat + 1) := by
  have whole : old.count (byteOf old j) = (old.take j).count (byteOf old j) + (old.drop j).count (byteOf old j) := by
    rw [← count_append,take_append_drop]
  have here : 0 < (old.drop j).count (byteOf old j) := count_pos_iff.mpr (byteOf_mem inside)
  rw [less_succ]
  unfold slot
  omega
theorem slot_le (inside : j < old.length) : slot old j ≤ old.length :=
  (slot_high inside).trans (less_le _ _)
theorem slot_byte {c : Nat} (inside : j < old.length) (low : less old c < slot old j)
    (high : slot old j ≤ less old (c + 1)) : (byteOf old j).toNat = c := by
  have after := slot_low old j
  have upTo := slot_high inside
  rcases Nat.lt_trichotomy (byteOf old j).toNat c with below | same | above
  · have := less_mono old (show (byteOf old j).toNat + 1 ≤ c by omega)
    omega
  · exact same
  · have := less_mono old (show c + 1 ≤ (byteOf old j).toNat by omega)
    omega
theorem slot_lt {i : Nat} (before : i < j) (inside : j < old.length) (same : byteOf old i = byteOf old j) :
    slot old i < slot old j := by
  have part : old.take j = old.take i ++ (old.take j).drop i := by
    have parts := take_append_drop i (old.take j)
    rw [take_take,min_eq_left (by omega)] at parts
    exact parts.symm
  have here : 0 < ((old.take j).drop i).count (byteOf old i) := by
    rw [count_pos_iff,← byteOf_take before]
    exact byteOf_mem (by simp; omega)
  unfold slot
  rw [← same,part,count_append]
  omega
theorem slot_inj {i : Nat} (inside : i < old.length) (inside' : j < old.length)
    (same : slot old i = slot old j) : i = j := by
  have bytes : byteOf old i = byteOf old j :=
    UInt8.toNat_inj.mp (slot_byte inside (by rw [same]; exact slot_low old j) (by rw [same]; exact slot_high inside'))
  rcases Nat.lt_trichotomy i j with before | equal | after
  · have := slot_lt before inside' bytes
    omega
  · exact equal
  · have := slot_lt after inside bytes.symm
    omega

theorem insertLoop_spec (done rest : Bytes) (buckets I : Words)
    (holds : Holds buckets fun c => less (done ++ rest) c + done.count (UInt8.ofNat c))
    (size : I.length = (done ++ rest).length + 1)
    (lists : ∀ j < done.length, I[slot (done ++ rest) j]? = some (j : Int)) :
    ∃ buckets' I', insertLoop rest done.length buckets I = some (buckets', I') ∧
      Holds buckets' (fun c => less (done ++ rest) c + (done ++ rest).count (UInt8.ofNat c)) ∧
      I'.length = I.length ∧ ∀ j < (done ++ rest).length, I'[slot (done ++ rest) j]? = some (j : Int) := by
  induction rest generalizing done buckets I with
  | nil => exact ⟨buckets,I,rfl,by simpa using holds,rfl,by simpa using lists⟩
  | cons c rest ih =>
    set old := done ++ c :: rest with whole
    have within : done.length < old.length := by simp [whole]
    have byte : byteOf old done.length = c := by simp [byteOf,whole]
    have place : bucketOf buckets c + 1 = (slot old done.length : Int) := by
      rw [holds_bucketOf holds,slot,byte,UInt8.ofNat_toNat,whole,take_left]
      rfl
    have stored := holds_set holds c.toNat_lt (bucketOf buckets c + 1)
    have found : bucketOf (buckets.set c.toNat (bucketOf buckets c + 1)) c = (slot old done.length : Int) := by
      rw [holds_bucketOf stored,if_pos rfl,place]
    have joined : done ++ [c] ++ rest = old := by simp [whole]
    have room := slot_le within
    obtain ⟨buckets',I',run,after⟩ := ih (done ++ [c]) (buckets.set c.toNat (bucketOf buckets c + 1))
      (I.set (slot old done.length) done.length) (by
        rw [joined]
        refine holds_congr stored fun d inside => ?_
        by_cases here : d = c.toNat
        · subst here
          simp only [if_true,holds_bucketOf holds,UInt8.ofNat_toNat,count_append,count_cons_self,count_nil]
          omega
        · have other : c ≠ UInt8.ofNat d := by
            rintro rfl
            exact here (UInt8.toNat_ofNat_of_lt' inside).symm
          simp [here,count_cons_of_ne other])
      (by rw [joined]; simpa using size)
      (by
        rw [joined]
        intro j small
        by_cases here : j = done.length
        · subst here
          rw [getElem?_set_self (by omega)]
        · have before : j < done.length := by simp at small; omega
          have apart : slot old done.length ≠ slot old j := fun same => here (slot_inj (by omega) within same.symm)
          rw [getElem?_set_ne apart]
          exact lists j before)
    rw [joined] at after
    refine ⟨buckets',I',?_,by simpa using after⟩
    rw [insertLoop,found,poke_nat (by omega)]
    simpa using run

theorem singleLoop_spec (holds : Holds buckets fun c => less old (c + 1)) (marked : List Nat)
    (range : ∀ c ∈ marked, 1 ≤ c ∧ c < 256) {I : Words} (size : I.length = old.length + 1) :
    ∃ I', singleLoop buckets marked I = some I' ∧ I'.length = I.length ∧
      (∀ c ∈ marked, less old (c + 1) = less old c + 1 → I'[less old (c + 1)]? = some (-1)) ∧
      ∀ k, (∀ c ∈ marked, less old (c + 1) = less old c + 1 → k ≠ less old (c + 1)) → I'[k]? = I[k]? := by
  induction marked generalizing I with
  | nil => exact ⟨I,rfl,rfl,by simp,fun _ _ => rfl⟩
  | cons c marked ih =>
    have ⟨positive,small⟩ := range c mem_cons_self
    have inside := less_le old (c + 1)
    have value := holds.2 c small
    have before := holds.2 (c - 1) (by omega)
    dsimp only at value before
    rw [show c - 1 + 1 = c by omega] at before
    by_cases single : less old (c + 1) = less old c + 1
    · obtain ⟨I',run,size',marks,others⟩ := ih (I := I.set (less old (c + 1)) (-1))
        (fun d member => range d (mem_cons_of_mem _ member)) (by simpa using size)
      refine ⟨I',?_,by simpa using size',fun d member alone => ?_,fun k apart => ?_⟩
      · rw [singleLoop,value,before,decide_eq_true (by exact_mod_cast single),markSingle,if_pos rfl,poke_nat (by omega)]
        exact run
      · rcases mem_cons.mp member with rfl | member
        · by_cases again : ∃ c ∈ marked, less old (c + 1) = less old c + 1 ∧ less old (d + 1) = less old (c + 1)
          · obtain ⟨e,member,alone',same⟩ := again
            rw [same]
            exact marks e member alone'
          · rw [others _ fun e member alone' same => again ⟨e,member,alone',same⟩,getElem?_set_self (by omega)]
        · exact marks d member alone
      · rw [others k fun d member => apart d (mem_cons_of_mem _ member),
          getElem?_set_ne (Ne.symm (apart c mem_cons_self single))]
    · obtain ⟨I',run,size',marks,others⟩ := ih (fun d member => range d (mem_cons_of_mem _ member)) size
      refine ⟨I',?_,size',fun d member alone => ?_,fun k apart => ?_⟩
      · rw [singleLoop,value,before,decide_eq_false (by exact_mod_cast single),markSingle,if_neg (by simp)]
        exact run
      · rcases mem_cons.mp member with rfl | member
        · exact absurd alone single
        · exact marks d member alone
      · exact others k fun d member => apart d (mem_cons_of_mem _ member)

/-! ## The first groups -/

section
variable {old : Bytes} {P : Equiv.Perm Nat}

structure Slotted (old : Bytes) (P : Equiv.Perm Nat) : Prop where
  stays : ∀ k, P k ≤ old.length ↔ k ≤ old.length
  empty : P 0 = old.length
  place : ∀ j < old.length, P (slot old j) = j

theorem slotted_exists (old : Bytes) : ∃ P, Slotted old P := by
  obtain ⟨P,stays,inverse⟩ := perm_of_injective (n := old.length) (fun j => if j < old.length then slot old j else 0)
    (fun j _ => by split; exacts [slot_le ‹_›,Nat.zero_le _])
    (fun i j small small' same => by
      by_cases inside : i < old.length
      · by_cases inside' : j < old.length
        · rw [if_pos inside,if_pos inside'] at same
          exact slot_inj inside inside' same
        · rw [if_pos inside,if_neg inside'] at same
          have := slot_low old i
          omega
      · by_cases inside' : j < old.length
        · rw [if_neg inside,if_pos inside'] at same
          have := slot_low old j
          omega
        · omega)
  refine ⟨P,stays,?_,fun j inside => ?_⟩
  · simpa using inverse old.length (le_refl _)
  · simpa [inside] using inverse j (by omega)

theorem slotted_slot (slotted : Slotted old P) {k : Nat} (positive : 0 < k) (small : k ≤ old.length) :
    P k < old.length ∧ slot old (P k) = k := by
  have upTo := (slotted.stays k).mpr small
  have other : P k ≠ old.length := by
    rw [← slotted.empty]
    exact fun same => absurd (P.injective same) (by omega)
  have inside : P k < old.length := by omega
  exact ⟨inside,P.injective (slotted.place _ inside)⟩

def lastOf (old : Bytes) (P : Equiv.Perm Nat) (k : Nat) : Nat := if k = 0 then 0 else less old ((byteOf old (P k)).toNat + 1)

theorem lastOf_bucket (slotted : Slotted old P) {c k : Nat} (low : less old c < k) (high : k ≤ less old (c + 1)) :
    lastOf old P k = less old (c + 1) := by
  have upTo := less_le old (c + 1)
  obtain ⟨inside,place⟩ := slotted_slot slotted (show 0 < k by omega) (by omega)
  rw [lastOf,if_neg (by omega),slot_byte (c := c) inside (by omega) (by omega)]
theorem bucket_of (slotted : Slotted old P) {k : Nat} (positive : 0 < k) (small : k ≤ old.length) :
    ∃ c, less old c < k ∧ k ≤ less old (c + 1) := by
  obtain ⟨inside,place⟩ := slotted_slot slotted positive small
  have low := slot_low old (P k)
  have high := slot_high inside
  exact ⟨(byteOf old (P k)).toNat,by omega,by omega⟩

theorem ends_lastOf (slotted : Slotted old P) : Ends old.length (lastOf old P) := by
  refine ⟨fun k small => ?_,fun k small => ?_,fun k small m after before => ?_⟩
  all_goals rcases Nat.eq_zero_or_pos k with rfl | positive
  · exact Nat.zero_le _
  · obtain ⟨c,low,high⟩ := bucket_of slotted positive small
    rw [lastOf_bucket slotted low high]
    exact high
  · simp [lastOf]
  · obtain ⟨c,low,high⟩ := bucket_of slotted positive small
    rw [lastOf_bucket slotted low high]
    exact less_le old _
  · rw [lastOf,if_pos rfl] at before
    rw [show m = 0 by omega]
  · obtain ⟨c,low,high⟩ := bucket_of slotted positive small
    rw [lastOf_bucket slotted low high] at before ⊢
    exact lastOf_bucket slotted (by omega) before

theorem ranked_lastOf (slotted : Slotted old P) {V : Words} (size : V.length = old.length + 1)
    (empty : V[old.length]? = some 0)
    (first : ∀ j < old.length, V[j]? = some (less old ((byteOf old j).toNat + 1) : Int)) :
    Ranked old.length 1 V P (lastOf old P) := by
  refine ⟨slotted.stays,size,fun k small => ?_,ends_lastOf slotted,fun i j small small' other same => ?_⟩
  · rcases Nat.eq_zero_or_pos k with rfl | positive
    · rw [slotted.empty,empty]
      rfl
    · rw [first _ (slotted_slot slotted positive small).1,lastOf,if_neg (by omega)]
  · rcases Nat.eq_zero_or_pos i with rfl | positive
    · have := (ends_lastOf slotted).low j small'
      rw [← same] at this
      simp only [lastOf,if_true] at this
      omega
    · exact (slotted_slot slotted positive small).1

theorem chunks_bucket (slotted : Slotted old P) {I : Words} {c : Nat}
    (bucket : I[less old (c + 1)]? = some (-1) ∧ less old (c + 1) = less old c + 1 ∨
      Shows I P (less old c + 1) (less old (c + 1) + 1)) :
    Chunks old.length 1 I P (lastOf old P) (less old c + 1) (less old (c + 1) + 1) := by
  rcases bucket with ⟨sorted,single⟩ | lists
  · refine .run (r := 1) (by rw [← single]; exact sorted) (by omega) (fun j low high => ?_) (by rw [single]; exact .nil _)
    rw [lastOf_bucket slotted (c := c) (by omega) (by omega)]
    omega
  have mono := less_mono old (show c ≤ c + 1 by omega)
  have inside := less_le old (c + 1)
  by_cases none : less old (c + 1) = less old c
  · rw [none]
    exact .nil _
  · refine .group (e := less old (c + 1)) (by omega) lists (fun j low high => ?_) (fun j low high => ?_) (.nil _)
    · exact lastOf_bucket slotted (by omega) high
    · exact (slotted_slot slotted (by omega) (by omega)).1

theorem chunks_buckets (slotted : Slotted old P) {I : Words}
    (bucket : ∀ c < 256, I[less old (c + 1)]? = some (-1) ∧ less old (c + 1) = less old c + 1 ∨
      Shows I P (less old c + 1) (less old (c + 1) + 1)) {m : Nat} (small : m ≤ 256) :
    Chunks old.length 1 I P (lastOf old P) 1 (less old m + 1) := by
  induction m with
  | zero =>
    rw [less_zero]
    exact .nil _
  | succ m ih => exact chunks_append (ih (by omega)) (chunks_bucket slotted (bucket m (by omega)))

end

end Recovery.Buckets
