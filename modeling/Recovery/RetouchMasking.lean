import Recovery.Retouch

/-!
Masking a binary twice.
-/
namespace Recovery.RetouchMasking
open Memory Retouch List Option

/-! ## The list -/

/-- An entry of the list: its length, the offset of a word, and the word's value. -/
structure Entry where
  size : Nat
  offset : Int
  original : Nat
  deriving DecidableEq, Repr

def entryAt (binary : Bytes) (ptr offsPrev : Int) (contPrev : Nat) : Option Entry := do
  let first ← slice binary ptr 1
  let size := entrySize (first.getD 0 0)
  let input ← slice binary ptr size
  let (offset, original) := decodeBytes input offsPrev contPrev
  some ⟨size, offset, original⟩
def Rejected (bOffs : Int) (e : Entry) : Prop := e.offset < -1 ∨ e.offset ≥ bOffs
instance (bOffs : Int) (e : Entry) : Decidable (Rejected bOffs e) := inferInstanceAs (Decidable (_ ∨ _))
/-- The entries from a place on, up to the first one that is rejected. -/
def entriesFrom (binary : Bytes) (bOffs rOffs : Int) : Nat → Int → Int → Nat → List Entry
  | 0, _, _, _ => []
  | fuel + 1, ptr, offsPrev, contPrev =>
    if ptr < rOffs then
      match entryAt binary ptr offsPrev contPrev with
      | none => []
      | some e =>
        if Rejected bOffs e then [] else e :: entriesFrom binary bOffs rOffs fuel (ptr + e.size) e.offset e.original
    else []

def target (pOffs : Int) (e : Entry) : Int := if e.offset = -1 then pOffs else e.offset
def Apart (bOffs : Int) (e : Entry) : Prop := e.offset = -1 ∨ e.offset + 4 ≤ bOffs
/-- The words of some entries cover a place. -/
def Covers (pOffs : Int) (es : List Entry) (i : Nat) : Prop :=
  ∃ e ∈ es, target pOffs e ≤ i ∧ (i : Int) < target pOffs e + 4

/-- The offset that the loop infers from a word it has written. -/
def inferred (d : Int) (e : Entry) : Int := wrap 32 ((unsigned 32 (e.original + d) : Int) - e.original)
def advance (d : Int) (e : Entry) (st : MaskState) (binary : Bytes) : MaskState :=
  { st with
    binary
    ptr := st.ptr + e.size
    offsPrev := e.offset
    contPrev := e.original
    candidate := if st.offsetSet then st.candidate else inferred d e
    offsetSet := true
    mismatch := if st.offsetSet then st.mismatch || (st.candidate != inferred d e) else st.mismatch }
/-- The word of an entry holds its original value plus an offset. -/
def Holds (d pOffs : Int) (binary : Bytes) (e : Entry) : Prop :=
  slice binary (target pOffs e) 4 = some (leBytes 4 (unsigned 32 (e.original + d)))

theorem decodeInMemory_eq (st : MaskState) :
    decodeInMemory st = (entryAt st.binary st.ptr st.offsPrev st.contPrev).map fun e =>
      ({ st with ptr := st.ptr + e.size, offsPrev := e.offset, contPrev := e.original }, e.offset, e.original) := by
  simp only [decodeInMemory,entryAt,bind_eq_bind]
  cases slice st.binary st.ptr 1 with
  | none => rfl
  | some first =>
    simp only [bind_some]
    cases slice st.binary st.ptr (entrySize (first.getD 0 0)) with
    | none => rfl
    | some input => rfl

section Steps
variable {d bOffs pOffs rOffs : Int}

variable {desired : Option Int} {st : MaskState} {e : Entry} {a b : Bytes}

theorem maskStep_none
    (missing : entryAt st.binary st.ptr st.offsPrev st.contPrev = none) : maskStep desired bOffs pOffs st = none := by
  rw [maskStep,decodeInMemory_eq,missing]
  rfl
theorem maskStep_rejected
    (found : entryAt st.binary st.ptr st.offsPrev st.contPrev = some e) (rejected : Rejected bOffs e) :
    maskStep desired bOffs pOffs st =
      some (false, { st with ptr := st.ptr + e.size, offsPrev := e.offset, contPrev := e.original }) := by
  rw [maskStep,decodeInMemory_eq,found]
  exact if_pos rejected
theorem maskStep_accepted {binary stored : Bytes}
    (found : entryAt st.binary st.ptr st.offsPrev st.contPrev = some e) (accepted : ¬ Rejected bOffs e)
    (written : writeEntry desired st.binary (target pOffs e) e.original = some binary)
    (read : slice binary (target pOffs e) 4 = some stored) :
    maskStep desired bOffs pOffs st =
      let offset := wrap 32 ((leVal stored : Int) - e.original)
      some (true, { st with
        binary
        ptr := st.ptr + e.size
        offsPrev := e.offset
        contPrev := e.original
        candidate := if st.offsetSet then st.candidate else offset
        offsetSet := true
        mismatch := if st.offsetSet then st.mismatch || (st.candidate != offset) else st.mismatch }) := by
  rw [maskStep,decodeInMemory_eq,found]
  refine (if_neg accepted).trans ?_
  unfold target at written read
  simp only [written,read,bind_eq_bind,bind_some]
  cases st.offsetSet <;> simp
theorem maskStep_holding {binary : Bytes}
    (found : entryAt st.binary st.ptr st.offsPrev st.contPrev = some e) (accepted : ¬ Rejected bOffs e)
    (written : writeEntry desired st.binary (target pOffs e) e.original = some binary)
    (holds : Holds d pOffs binary e) : maskStep desired bOffs pOffs st = some (true, advance d e st binary) := by
  have small : unsigned 32 (e.original + d) % 256 ^ 4 = unsigned 32 (e.original + d) :=
    Nat.mod_eq_of_lt (unsigned_lt 32 _)
  rw [maskStep_accepted found accepted written holds,leVal_leBytes,small]
  rfl
theorem holds_setSlice {r : Bytes}
    (written : setSlice a (target pOffs e) (leBytes 4 (unsigned 32 (e.original + d))) = some r) :
    Holds d pOffs r e := by
  have stored := slice_setSlice written
  exact stored
theorem maskStep_written
    (found : entryAt st.binary st.ptr st.offsPrev st.contPrev = some e) (accepted : ¬ Rejected bOffs e) :
    maskStep (some d) bOffs pOffs st =
      (setSlice st.binary (target pOffs e) (leBytes 4 (unsigned 32 (e.original + d)))).map fun binary =>
        (true, advance d e st binary) := by
  cases written : setSlice st.binary (target pOffs e) (leBytes 4 (unsigned 32 (e.original + d))) with
  | none =>
    have none : writeEntry (some d) st.binary (target pOffs e) e.original = none := written
    rw [maskStep,decodeInMemory_eq,found]
    refine (if_neg accepted).trans ?_
    unfold target at none
    simp [none]
  | some binary => exact maskStep_holding found accepted written (holds_setSlice written)

/-! ## Binaries with the same list -/

/-- Two binaries that agree from the start of the list on, but for the address in
    `prelink_info_t`. -/
structure SameList (bOffs pOffs : Int) (a b : Bytes) : Prop where
  length : a.length = b.length
  same : ∀ i : Nat, bOffs ≤ i → ((i : Int) < pOffs ∨ pOffs + 4 ≤ i) → a[i]? = b[i]?

theorem SameList.refl (a : Bytes) : SameList bOffs pOffs a a := ⟨rfl,fun _ _ _ => rfl⟩
theorem SameList.trans {c : Bytes} (first : SameList bOffs pOffs a b) (second : SameList bOffs pOffs b c) :
    SameList bOffs pOffs a c :=
  ⟨first.length.trans second.length,fun i low place => (first.same i low place).trans (second.same i low place)⟩
theorem SameList.later {low high : Int} (same : SameList low pOffs a b) (le : low ≤ high) :
    SameList high pOffs a b := ⟨same.length,fun i above place => same.same i (by omega) place⟩
theorem SameList.slice (same : SameList bOffs pOffs a b) {off : Int} {n : Nat} (low : bOffs ≤ off)
    (place : off + n ≤ pOffs ∨ pOffs + 4 ≤ off) : slice a off n = slice b off n := by
  by_cases negative : off < 0
  · rw [Memory.slice,Memory.slice,if_neg (by omega),if_neg (by omega)]
  · obtain ⟨k,rfl⟩ : ∃ k : Nat, off = k := ⟨off.toNat,by omega⟩
    exact slice_congr same.length fun i above below => same.same i (by omega) (by omega)

theorem entrySize_le (first : UInt8) : entrySize first ≤ 8 := by
  unfold entrySize
  split_ifs <;> decide
theorem entryAt_congr (same : SameList bOffs pOffs a b) {ptr : Int} (low : bOffs ≤ ptr)
    (high : ptr + 8 ≤ pOffs) (offsPrev : Int) (contPrev : Nat) :
    entryAt a ptr offsPrev contPrev = entryAt b ptr offsPrev contPrev := by
  unfold entryAt
  rw [same.slice low (.inl (by omega))]
  cases slice b ptr 1 with
  | none => rfl
  | some first =>
    have size := entrySize_le (first.getD 0 0)
    have input : slice a ptr (entrySize (first.getD 0 0)) = slice b ptr (entrySize (first.getD 0 0)) :=
      same.slice low (.inl (by omega))
    simp only [bind_eq_bind,bind_some,input]

/-! ## Writing a word -/

theorem setSlice_at {r data : Bytes} {off : Int} (done : setSlice a off data = some r) (i : Nat) :
    r[i]? = if off ≤ i ∧ (i : Int) < off + data.length then data[i - off.toNat]? else a[i]? := by
  have inside : 0 ≤ off := by
    unfold setSlice at done
    split at done
    · exact (by assumption : 0 ≤ off ∧ _).1
    · cases done
  obtain ⟨k,rfl⟩ : ∃ k : Nat, off = k := ⟨off.toNat,by omega⟩
  rw [setSlice_getElem? done i,Int.toNat_natCast]
  exact if_congr (by omega) rfl rfl
theorem setSlice_sameList {r data : Bytes} (apart : Apart bOffs e) (width : data.length = 4)
    (done : setSlice a (target pOffs e) data = some r) : SameList bOffs pOffs a r := by
  refine ⟨(setSlice_length done).symm,fun i low place => ?_⟩
  rw [setSlice_at done,if_neg]
  unfold target
  rcases apart with prelink | before
  · omega
  · split <;> omega

/-- A run from two binaries with the same list, which differ only where words are written, ends
    the same. -/
theorem maskLoop_alike (list : Bytes) (gap : rOffs + 8 ≤ pOffs) (fuel : Nat) (st : MaskState)
    (onLeft : SameList bOffs pOffs list a) (onRight : SameList bOffs pOffs list b) (low : bOffs ≤ st.ptr)
    (apart : ∀ e ∈ entriesFrom list bOffs rOffs fuel st.ptr st.offsPrev st.contPrev, Apart bOffs e)
    (agree : ∀ i, ¬ Covers pOffs (entriesFrom list bOffs rOffs fuel st.ptr st.offsPrev st.contPrev) i → a[i]? = b[i]?) :
    maskLoop (some d) bOffs pOffs rOffs fuel { st with binary := a } =
      maskLoop (some d) bOffs pOffs rOffs fuel { st with binary := b } := by
  induction fuel generalizing st a b with
  | zero => rfl
  | succ fuel ih =>
    -- where no word is left to be written the binaries are equal
    have finished (none : entriesFrom list bOffs rOffs (fuel + 1) st.ptr st.offsPrev st.contPrev = []) :
        maskLoop (some d) bOffs pOffs rOffs (fuel + 1) { st with binary := a } =
          maskLoop (some d) bOffs pOffs rOffs (fuel + 1) { st with binary := b } := by
      have equal : a = b := ext_getElem? fun i => agree i (by simp [none,Covers])
      rw [equal]
    by_cases more : st.ptr < rOffs
    swap
    · exact finished (by rw [entriesFrom,if_neg more])
    have readLeft := entryAt_congr onLeft low (by omega) st.offsPrev st.contPrev
    have readRight := entryAt_congr onRight low (by omega) st.offsPrev st.contPrev
    cases found : entryAt list st.ptr st.offsPrev st.contPrev with
    | none => exact finished (by rw [entriesFrom,if_pos more,found])
    | some e =>
      by_cases rejected : Rejected bOffs e
      · exact finished (by rw [entriesFrom,if_pos more,found]; exact if_pos rejected)
      have entries : entriesFrom list bOffs rOffs (fuel + 1) st.ptr st.offsPrev st.contPrev =
          e :: entriesFrom list bOffs rOffs fuel (st.ptr + e.size) e.offset e.original := by
        rw [entriesFrom,if_pos more,found]
        exact if_neg rejected
      rw [entries] at apart agree
      have apartNow : Apart bOffs e := apart e (by simp)
      rw [maskLoop,maskLoop,if_pos more,if_pos more]
      rw [maskStep_written (readLeft.symm.trans found) rejected,maskStep_written (readRight.symm.trans found) rejected]
      have inside : setSlice a (target pOffs e) (leBytes 4 (unsigned 32 (e.original + d))) = none ↔
          setSlice b (target pOffs e) (leBytes 4 (unsigned 32 (e.original + d))) = none := by
        simp only [setSlice,← onLeft.length,← onRight.length]
        split <;> simp
      cases written : setSlice a (target pOffs e) (leBytes 4 (unsigned 32 (e.original + d))) with
      | none => rw [inside.mp written]; rfl
      | some a' =>
        cases written' : setSlice b (target pOffs e) (leBytes 4 (unsigned 32 (e.original + d))) with
        | none => rw [inside.mpr written'] at written; cases written
        | some b' =>
          exact ih (advance d e st a') (onLeft.trans (setSlice_sameList apartNow (by simp) written))
            (onRight.trans (setSlice_sameList apartNow (by simp) written'))
            (by simp only [advance]; omega) (fun other member => apart other (mem_cons_of_mem _ member))
            fun i uncovered => by
              rw [setSlice_at written,setSlice_at written']
              split
              · rfl
              rename_i outside
              refine agree i fun covered => ?_
              obtain ⟨other,member,place⟩ := covered
              rcases mem_cons.mp member with rfl | later
              · exact outside (by simpa using place)
              · exact uncovered ⟨other,later,place⟩

theorem entriesFrom_cons {list : Bytes} {fuel : Nat} {ptr offsPrev : Int} {contPrev : Nat}
    (more : ptr < rOffs) (found : entryAt list ptr offsPrev contPrev = some e) (accepted : ¬ Rejected bOffs e) :
    entriesFrom list bOffs rOffs (fuel + 1) ptr offsPrev contPrev =
      e :: entriesFrom list bOffs rOffs fuel (ptr + e.size) e.offset e.original := by
  rw [entriesFrom,if_pos more,found]
  exact if_neg accepted
/-- A round that does not leave the loop: it rejects the entry, or writes it and goes on behind it. -/
theorem maskLoop_round {list : Bytes} {fuel : Nat} {st last : MaskState} {good : Bool} (gap : rOffs + 8 ≤ pOffs)
    (same : SameList bOffs pOffs list st.binary) (low : bOffs ≤ st.ptr) (more : st.ptr < rOffs)
    (run : maskLoop (some d) bOffs pOffs rOffs (fuel + 1) st = some (good, last)) :
    good = false ∧ last.binary = st.binary ∨
      ∃ e binary, entryAt list st.ptr st.offsPrev st.contPrev = some e ∧ ¬ Rejected bOffs e ∧
        setSlice st.binary (target pOffs e) (leBytes 4 (unsigned 32 (e.original + d))) = some binary ∧
        maskLoop (some d) bOffs pOffs rOffs fuel (advance d e st binary) = some (good, last) := by
  rw [maskLoop,if_pos more] at run
  have read := entryAt_congr same low (by omega) st.offsPrev st.contPrev
  cases found : entryAt list st.ptr st.offsPrev st.contPrev with
  | none =>
    rw [maskStep_none (read.symm.trans found)] at run
    cases run
  | some e =>
    by_cases rejected : Rejected bOffs e
    · rw [maskStep_rejected (read.symm.trans found) rejected] at run
      cases run
      exact .inl ⟨rfl,rfl⟩
    rw [maskStep_written (read.symm.trans found) rejected] at run
    cases written : setSlice st.binary (target pOffs e) (leBytes 4 (unsigned 32 (e.original + d))) with
    | none => rw [written] at run; cases run
    | some binary =>
      rw [written] at run
      exact .inr ⟨e,binary,rfl,rejected,written,run⟩

theorem maskLoop_keeps (list : Bytes) (gap : rOffs + 8 ≤ pOffs) (fuel : Nat) (st : MaskState)
    (same : SameList bOffs pOffs list st.binary) (low : bOffs ≤ st.ptr)
    (apart : ∀ e ∈ entriesFrom list bOffs rOffs fuel st.ptr st.offsPrev st.contPrev, Apart bOffs e)
    {good : Bool} {last : MaskState} (run : maskLoop (some d) bOffs pOffs rOffs fuel st = some (good, last)) :
    SameList bOffs pOffs list last.binary ∧
      ∀ i, ¬ Covers pOffs (entriesFrom list bOffs rOffs fuel st.ptr st.offsPrev st.contPrev) i →
        last.binary[i]? = st.binary[i]? := by
  induction fuel generalizing st with
  | zero => cases run
  | succ fuel ih =>
    by_cases more : st.ptr < rOffs
    swap
    · rw [maskLoop,if_neg more] at run
      cases run
      exact ⟨same,fun _ _ => rfl⟩
    obtain ⟨-,unchanged⟩ | ⟨e,binary,found,accepted,written,run⟩ := maskLoop_round gap same low more run
    · rw [unchanged]
      exact ⟨same,fun _ _ => rfl⟩
    rw [entriesFrom_cons more found accepted] at apart ⊢
    have kept := setSlice_sameList (apart e (by simp)) (by simp) written
    obtain ⟨sameLast,outside⟩ := ih (advance d e st binary) (same.trans kept) (by simp only [advance]; omega)
      (fun other member => apart other (mem_cons_of_mem _ member)) run
    refine ⟨sameLast,fun i uncovered => ?_⟩
    have later := outside i fun ⟨other,member,place⟩ => uncovered ⟨other,mem_cons_of_mem _ member,place⟩
    rw [later]
    refine (setSlice_at written i).trans (if_neg fun place => ?_)
    exact uncovered ⟨e,by simp,by simpa using place⟩

end Steps

/-! ## Whole binaries -/

/-- Where `prelink_info_t` and `retouch_info_t` are. -/
def prelinkAt (binarySize : Int) : Int := wrap 32 (binarySize - prelinkInfoSize)
def retouchAt (binarySize : Int) : Int := wrap 32 (prelinkAt binarySize - retouchInfoSize)
structure Tagged (binary : Bytes) (binarySize : Int) : Prop where
  room : 0 ≤ retouchAt binarySize
  prelink : slice binary (prelinkAt binarySize + 4) 4 = some prelinkTag
  retouch : slice binary (retouchAt binarySize) 8 = some retouchTag
/-- The entries of a list that starts at `bOffs`. -/
def listed (binary : Bytes) (binarySize bOffs : Int) : List Entry :=
  entriesFrom binary bOffs (retouchAt binarySize) (binary.length + 1) bOffs 0 0
/-- Where the list starts, if the binary has one. -/
def ListStarts (binary : Bytes) (binarySize bOffs : Int) : Prop :=
  Tagged binary binarySize ∧ ∃ blobSize, slice binary (retouchAt binarySize + 8) 4 = some blobSize ∧
    bOffs = wrap 32 (retouchAt binarySize - leVal blobSize)
/-- No word of the binary reaches into its list. -/
def WordsApart (binary : Bytes) (binarySize : Int) : Prop :=
  ∀ bOffs, ListStarts binary binarySize bOffs → ∀ e ∈ listed binary binarySize bOffs, Apart bOffs e

variable {binarySize : Int} {masked : Masked} {binary : Bytes}

theorem retouchMaskData_tagged (tagged : Tagged binary binarySize)
    (desired : Option Int) :
    retouchMaskData binary binarySize desired = maskEntries binary desired (prelinkAt binarySize) (retouchAt binarySize) := by
  have room := tagged.room
  have prelink := tagged.prelink
  have retouch := tagged.retouch
  unfold retouchAt prelinkAt at *
  simp only [retouchMaskData,prelink,retouch,bind_eq_bind,bind_some]
  rw [if_neg (by omega),if_neg (by simp),if_neg (by simp)]
private theorem retouchMaskData_untagged (untagged : ¬ Tagged binary binarySize)
    {desired : Option Int} (done : retouchMaskData binary binarySize desired = some masked) :
    masked.binary = binary := by
  unfold retouchMaskData at done
  dsimp only at done
  split at done
  · cases done; rfl
  rename_i room
  obtain ⟨pTag,prelink,done⟩ := bind_eq_some_iff.mp done
  split at done
  · cases done; rfl
  rename_i samePrelink
  obtain ⟨rTag,retouch,done⟩ := bind_eq_some_iff.mp done
  split at done
  · cases done; rfl
  rename_i sameRetouch
  rw [not_not.mp samePrelink] at prelink
  rw [not_not.mp sameRetouch] at retouch
  exact absurd ⟨by unfold retouchAt prelinkAt; omega,prelink,retouch⟩ untagged

theorem tagged_gap (tagged : Tagged binary binarySize) :
    retouchAt binarySize + 12 = prelinkAt binarySize := by
  have inside := (slice_some tagged.prelink).1
  have high : prelinkAt binarySize < 2 ^ 31 := by
    have := Int.bmod_lt (m := 2 ^ 32) (x := binarySize - prelinkInfoSize) (by omega)
    unfold prelinkAt wrap
    omega
  have exact : retouchAt binarySize = prelinkAt binarySize - 12 := by
    unfold retouchAt retouchInfoSize
    exact wrap_small (by omega) (by omega)
  omega
theorem tagged_of_sameList {a b : Bytes} {bOffs : Int} (tagged : Tagged a binarySize)
    (low : bOffs ≤ retouchAt binarySize) (same : SameList bOffs (prelinkAt binarySize) a b) : Tagged b binarySize := by
  have gap := tagged_gap tagged
  refine ⟨tagged.room,?_,?_⟩
  · rw [← same.slice (by omega) (.inr (by omega)),tagged.prelink]
  · rw [← same.slice (by omega) (.inl (by omega)),tagged.retouch]
theorem maskEntries_matched {desired : Option Int} {pOffs rOffs : Int}
    (done : maskEntries binary desired pOffs rOffs = some masked) (matched : masked.code = .matched) :
    ∃ blobSize last, slice binary (rOffs + 8) 4 = some blobSize ∧ ¬ wrap 32 (rOffs - leVal blobSize) < 0 ∧
      maskLoop desired (wrap 32 (rOffs - leVal blobSize)) pOffs rOffs (binary.length + 1)
        ⟨binary,wrap 32 (rOffs - leVal blobSize),0,0,desired.getD 0,false,false⟩ = some (true, last) ∧
      last.ptr ≤ rOffs ∧ masked.binary = last.binary := by
  obtain ⟨blobSize,found,done⟩ := bind_eq_some_iff.mp done
  dsimp only at done
  split at done
  · cases done; cases matched
  rename_i start
  obtain ⟨⟨good,last⟩,run,done⟩ := bind_eq_some_iff.mp done
  split at done
  · cases done; cases matched
  rename_i fine
  obtain rfl : good = true := by simpa using fine
  split at done
  · cases done; cases matched
  rename_i near
  split at done
  · cases done; cases matched
  · cases done
    exact ⟨blobSize,last,found,start,run,Int.not_lt.mp near,rfl⟩
private theorem maskEntries_alike {a b : Bytes} {pOffs rOffs bOffs d : Int} {blobSize : Bytes} (gap : rOffs + 12 = pOffs)
    (found : slice b (rOffs + 8) 4 = some blobSize) (start : bOffs = wrap 32 (rOffs - leVal blobSize))
    (low : bOffs ≤ rOffs) (same : SameList bOffs pOffs b a)
    (apart : ∀ e ∈ entriesFrom b bOffs rOffs (b.length + 1) bOffs 0 0, Apart bOffs e)
    (agree : ∀ i, ¬ Covers pOffs (entriesFrom b bOffs rOffs (b.length + 1) bOffs 0 0) i → a[i]? = b[i]?)
    (inside : ¬ bOffs < 0) : maskEntries a (some d) pOffs rOffs = maskEntries b (some d) pOffs rOffs := by
  have found' : slice a (rOffs + 8) 4 = some blobSize := by rw [← same.slice (by omega) (.inl (by omega)),found]
  have loops := maskLoop_alike b (by omega) (b.length + 1) ⟨b,bOffs,0,0,d,false,false⟩ same (.refl b)
    (Int.le_refl _) apart agree (d := d)
  simp only [maskEntries,found,found',bind_eq_bind,bind_some,← start,if_neg inside,
    getD_some,← same.length]
  rw [show maskLoop (some d) bOffs pOffs rOffs (b.length + 1) ⟨a,bOffs,0,0,d,false,false⟩ =
    maskLoop (some d) bOffs pOffs rOffs (b.length + 1) ⟨b,bOffs,0,0,d,false,false⟩ from loops]

/-- Masking a masked binary is masking the binary, when no word reaches into the list. -/
theorem masked_again {d₁ d₂ : Int}
    (apart : WordsApart binary binarySize) (first : retouchMaskData binary binarySize (some d₁) = some masked)
    (matched : masked.code = .matched) :
    retouchMaskData masked.binary binarySize (some d₂) = retouchMaskData binary binarySize (some d₂) := by
  by_cases tagged : Tagged binary binarySize
  swap
  · rw [retouchMaskData_untagged tagged first]
  have gap := tagged_gap tagged
  rw [retouchMaskData_tagged tagged] at first
  obtain ⟨blobSize,last,found,inside,run,-,same⟩ := maskEntries_matched first matched
  rw [same]
  generalize start : wrap 32 (retouchAt binarySize - leVal blobSize) = bOffs at inside run
  have apart := apart bOffs ⟨tagged,blobSize,found,start.symm⟩
  by_cases low : bOffs ≤ retouchAt binarySize
  swap
  · -- the list starts behind its own end, so there is nothing to write
    rw [maskLoop,if_neg (by dsimp only; omega)] at run
    cases run
    rfl
  obtain ⟨kept,outside⟩ := maskLoop_keeps binary (show retouchAt binarySize + 8 ≤ prelinkAt binarySize by omega)
    (binary.length + 1) ⟨binary,bOffs,0,0,d₁,false,false⟩ (.refl binary) (Int.le_refl bOffs) apart run
  rw [retouchMaskData_tagged tagged,retouchMaskData_tagged (tagged_of_sameList tagged low kept)]
  exact maskEntries_alike gap found start.symm low kept apart outside inside

end Recovery.RetouchMasking
