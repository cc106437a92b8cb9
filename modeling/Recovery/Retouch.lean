import Recovery.Memory

/-!
`Retouch.c`: a prelinked binary that was moved to a random address ends with the
list of its changed words, each with its original value. Masking writes the
original values, plus a wanted offset, back over the words.
-/
namespace Recovery.Retouch
open Memory Option

/-- What `retouch_mask_data` returns. -/
inductive RetouchCode where
  | error
  | matched
  | mismatched
  | notApplicable
  deriving DecidableEq, Repr

/-- What a call leaves: its code, the binary, and the offset it stores for the
    caller. -/
structure Masked where
  code : RetouchCode
  binary : Bytes
  retouchOffset : Int
  deriving DecidableEq, Repr

/-- The sizes of `prelink_info_t` and `retouch_info_t`. -/
def prelinkInfoSize : Int := 8
def retouchInfoSize : Int := 12

def prelinkTag : Bytes := ascii "PRE "
def retouchTag : Bytes := ascii "RETOUCH "

/-- `decode_bytes`: the offset and the contents of an entry of two, three or
    eight bytes, given those of the entry before. -/
def decodeBytes (encoded : Bytes) (offsPrev : Int) (contPrev : Nat) : Int × Nat :=
  let byte (i : Nat) : Nat := (encoded.getD i 0).toNat
  if encoded.length = 2 then
    let tmp := (byte 0 &&& 0x1f) <<< 8 ||| byte 1
    let tmp : Int := if tmp &&& 0x1000 ≠ 0 then tmp - 0x2000 else tmp
    (wrap 32 (offsPrev + (((byte 0 &&& 0x60) >>> 5 + 1) * 4 : Nat)), unsigned 32 (contPrev + tmp))
  else if encoded.length = 3 then
    let tmp := (byte 0 &&& 0x0f) <<< 16 ||| (byte 1) <<< 8 ||| byte 2
    let tmp : Int := if tmp &&& 0x80000 ≠ 0 then tmp - 0x100000 else tmp
    (wrap 32 (offsPrev + (((byte 0 &&& 0x30) >>> 4 + 1) * 4 : Nat)), unsigned 32 (contPrev + tmp))
  else
    let offset : Int := ((byte 0) <<< 24 ||| (byte 1) <<< 16 ||| (byte 2) <<< 8 ||| byte 3 : Nat)
    (if offset = 0x3fffffff then -1 else offset,
      (byte 4) <<< 24 ||| (byte 5) <<< 16 ||| (byte 6) <<< 8 ||| byte 7)

/-- The number of bytes of an entry, told by its first byte. -/
def entrySize (first : UInt8) : Nat :=
  if first &&& 0x80 ≠ 0 then 2 else if first &&& 0x40 ≠ 0 then 3 else 8

/-- The state of the loop: the binary, where the next entry is, the entry before,
    the offset inferred so far and whether the entries disagree about it. -/
structure MaskState where
  binary : Bytes
  ptr : Int
  offsPrev : Int
  contPrev : Nat
  candidate : Int
  offsetSet : Bool
  mismatch : Bool
  deriving DecidableEq, Repr

/-- `decode_in_memory`: the entry at the pointer; none when it is not inside the
    binary. -/
def decodeInMemory (st : MaskState) : Option (MaskState × Int × Nat) := do
  let first ← slice st.binary st.ptr 1
  let size := entrySize (first.getD 0 0)
  let input ← slice st.binary st.ptr size
  let (offset, contents) := decodeBytes input st.offsPrev st.contPrev
  some ({ st with ptr := st.ptr + size, offsPrev := offset, contPrev := contents }, offset, contents)

/-- The binary with a word set to its original value plus the wanted offset. -/
def writeEntry (desired : Option Int) (binary : Bytes) (entry : Int) (original : Nat) : Option Bytes :=
  match desired with
  | some target => setSlice binary entry (leBytes 4 (unsigned 32 (original + target)))
  | none => some binary

/-- One round of the loop: true, or false for an entry outside of the code. None
    when something outside the binary is touched. -/
def maskStep (desired : Option Int) (bOffs pOffs : Int) (st : MaskState) : Option (Bool × MaskState) := do
  let (st, entryOffset, original) ← decodeInMemory st
  if entryOffset < -1 ∨ entryOffset ≥ bOffs then some (false, st)
  else do
    -- an offset of -1 is the address in prelink_info_t
    let entry := if entryOffset = -1 then pOffs else entryOffset
    let binary ← writeEntry desired st.binary entry original
    let stored ← slice binary entry 4
    let offset := wrap 32 ((leVal stored : Int) - original)
    if st.offsetSet then
      some (true, { st with binary, mismatch := st.mismatch || (st.candidate != offset) })
    else some (true, { st with binary, candidate := offset, offsetSet := true })

def maskLoop (desired : Option Int) (bOffs pOffs rOffs : Int) : Nat → MaskState → Option (Bool × MaskState)
  | 0, _ => none
  | fuel + 1, st =>
    if st.ptr < rOffs then do
      let (good, st) ← maskStep desired bOffs pOffs st
      if good then maskLoop desired bOffs pOffs rOffs fuel st else some (false, st)
    else some (true, st)

/-- What is left to do once both tags are found. -/
def maskEntries (binary : Bytes) (desired : Option Int) (pOffs rOffs : Int) : Option Masked := do
  let target := desired.getD 0
  let blobSize ← slice binary (rOffs + 8) 4
  let bOffs := wrap 32 (rOffs - leVal blobSize)
  if bOffs < 0 then some ⟨.error, binary, target⟩
  else do
    let (good, st) ← maskLoop desired bOffs pOffs rOffs (binary.length + 1)
      ⟨binary, bOffs, 0, 0, target, false, false⟩
    if ¬ good then some ⟨.error, st.binary, target⟩
    else if st.ptr > rOffs then some ⟨.error, st.binary, target⟩
    else if st.mismatch then some ⟨.mismatched, st.binary, target⟩
    else some ⟨.matched, st.binary, st.candidate⟩

/-- A binary that was not retouched: a match, unless an offset is to be inferred. -/
def notRetouched (binary : Bytes) (desired : Option Int) : Masked :=
  ⟨if desired.isNone then .notApplicable else .matched, binary, desired.getD 0⟩

/-- `retouch_mask_data`; none when something outside the binary is touched. -/
def retouchMaskData (binary : Bytes) (binarySize : Int) (desired : Option Int) : Option Masked :=
  let pOffs := wrap 32 (binarySize - prelinkInfoSize)
  let rOffs := wrap 32 (pOffs - retouchInfoSize)
  if rOffs < 0 then some (notRetouched binary desired)
  else do
    let pTag ← slice binary (pOffs + 4) 4
    if pTag ≠ prelinkTag then some (notRetouched binary desired)
    else do
      let rTag ← slice binary rOffs 8
      if rTag ≠ retouchTag then some (notRetouched binary desired)
      else maskEntries binary desired pOffs rOffs

/-! ## The length of the binary -/

variable {st st' : MaskState} {desired : Option Int}

private theorem decodeInMemory_binary {offset : Int} {contents : Nat}
    (decoded : decodeInMemory st = some (st', offset, contents)) : st'.binary = st.binary := by
  simp only [decodeInMemory,bind_eq_bind,bind_eq_some_iff] at decoded
  obtain ⟨first,-,input,-,equal⟩ := decoded
  cases equal
  rfl
theorem writeEntry_length {binary written : Bytes} {entry : Int} {original : Nat}
    (done : writeEntry desired binary entry original = some written) : written.length = binary.length := by
  cases desired with
  | none => cases done; rfl
  | some target => exact setSlice_length done
theorem maskStep_length {bOffs pOffs : Int} {good : Bool}
    (step : maskStep desired bOffs pOffs st = some (good, st')) : st'.binary.length = st.binary.length := by
  simp only [maskStep,bind_eq_bind,bind_eq_some_iff] at step
  obtain ⟨⟨st₁,offset,original⟩,decoded,step⟩ := step
  rw [← decodeInMemory_binary decoded]
  by_cases bad : offset < -1 ∨ offset ≥ bOffs
  · simp only [bad,↓reduceIte,some.injEq,Prod.mk.injEq] at step
    rw [step.2]
  simp only [bad,↓reduceIte,bind_eq_some_iff] at step
  obtain ⟨binary,written,stored,-,step⟩ := step
  have same := writeEntry_length written
  by_cases again : st₁.offsetSet = true
  · simp only [again,↓reduceIte,some.injEq,Prod.mk.injEq] at step
    rw [← step.2,same]
  · simp only [again,Bool.false_eq_true,↓reduceIte,some.injEq,Prod.mk.injEq] at step
    rw [← step.2,same]
theorem maskLoop_length {bOffs pOffs rOffs : Int} {fuel : Nat} {good : Bool}
    (run : maskLoop desired bOffs pOffs rOffs fuel st = some (good, st')) :
    st'.binary.length = st.binary.length := by
  induction fuel generalizing st with
  | zero => cases run
  | succ fuel ih =>
    unfold maskLoop at run
    by_cases more : st.ptr < rOffs
    · simp only [more,↓reduceIte,bind_eq_bind,bind_eq_some_iff] at run
      obtain ⟨⟨fine,st₁⟩,step,run⟩ := run
      rw [← maskStep_length step]
      cases fine with
      | true => exact ih run
      | false => cases run; rfl
    · simp only [more,↓reduceIte,some.injEq,Prod.mk.injEq] at run
      rw [run.2]

end Recovery.Retouch
