import Recovery.Bspatch
import Recovery.StoredLibs
import Recovery.Tracing

/-!
`ApplyBSDiffPatchMem` step by step: what the decompressors write into the output, the loops that add
the old data, and how the function ends.
-/
namespace Recovery.BspatchSteps
open Memory Numbers Bspatch Tracing Tracing.Traced

inductive Access where
  /-- The decompressor writes bytes. -/
  | filled (pos : Int) (count : Nat)
  /-- The loop that adds old bytes runs up to a count. -/
  | added (oldpos newpos count : Int)
  deriving DecidableEq, Repr

inductive Halt where
  | returns (code : Int)
  | loops
  deriving DecidableEq, Repr

abbrev Steps := Traced Access Halt

structure Streams where
  control : Stream
  diff : Stream
  extra : Stream

/-- How a request for more bytes than a stream has ends. Input that is used up keeps the decompressor
    without progress for ever. -/
def shortOf : StreamEnd → Halt
  | .starved => .loops
  | _ => .returns 1

def fillOutput (pos : Int) (size : Nat) (stream : Stream) : Steps Stream := do
  note (.filled pos (min size stream.out.length))
  if size ≤ stream.out.length then pure { stream with out := stream.out.drop size } else stop (shortOf stream.fin)

def ctrl (stream : Stream) (k : Nat) : Int := offtin (((stream.out.take 24).drop (8 * k)).take 8)

/-- One round of the loop: the streams and the positions behind a control triple. Lengths are cut to
    an int where `FillBuffer` takes one; the int index of the add loop does not reach 2^31. -/
def applyTriple (newSize : Int) (s : Streams) (oldpos newpos : Int) : Steps (Streams × Int × Int) :=
  if s.control.out.length < 24 then stop (shortOf s.control.fin)
  else
    let ctrl0 := ctrl s.control 0
    let ctrl1 := ctrl s.control 1
    let ctrl2 := ctrl s.control 2
    if ctrl0 < 0 ∨ ctrl1 < 0 then stop (.returns 1)
    else if wrap 64 (newpos + ctrl0) > newSize then stop (.returns 1)
    else do
      let diff ← fillOutput newpos (unsigned 32 ctrl0) s.diff
      note (.added oldpos newpos ctrl0)
      if 2 ^ 31 ≤ ctrl0 then stop .loops
      else
        let newpos := wrap 64 (newpos + ctrl0)
        let oldpos := wrap 64 (oldpos + ctrl0)
        if wrap 64 (newpos + ctrl1) > newSize then stop (.returns 1)
        else do
          let extra ← fillOutput newpos (unsigned 32 ctrl1) s.extra
          pure (⟨{ s.control with out := s.control.out.drop 24 }, diff, extra⟩, wrap 64 (oldpos + ctrl2),
            wrap 64 (newpos + ctrl1))

/-- The loop of `ApplyBSDiffPatchMem`; a round uses up 24 bytes of the control stream. -/
def patchLoop (newSize : Int) : Nat → Streams → Int → Int → Steps Unit
  | 0, _, _, _ => stop .loops
  | fuel + 1, s, oldpos, newpos =>
    if newpos < newSize then do
      let (s, oldpos, newpos) ← applyTriple newSize s oldpos newpos
      patchLoop newSize fuel s oldpos newpos
    else pure ()

/-! ## How a round ends -/

/-- The triple is read and its first count passes the checks. -/
structure Opens (newSize : Int) (s : Streams) (newpos : Int) : Prop where
  read : 24 ≤ s.control.out.length
  count0 : 0 ≤ ctrl s.control 0
  count1 : 0 ≤ ctrl s.control 1
  room : wrap 64 (newpos + ctrl s.control 0) ≤ newSize
/-- The first half of the triple is done, and the second count passes its check. -/
structure Passes (newSize : Int) (s : Streams) (newpos : Int) : Prop extends Opens newSize s newpos where
  diff : unsigned 32 (ctrl s.control 0) ≤ s.diff.out.length
  small : ctrl s.control 0 < 2 ^ 31
  further : wrap 64 (wrap 64 (newpos + ctrl s.control 0) + ctrl s.control 1) ≤ newSize

def Streams.behind (s : Streams) : Streams :=
  ⟨{ s.control with out := s.control.out.drop 24 },
    { s.diff with out := s.diff.out.drop (unsigned 32 (ctrl s.control 0)) },
    { s.extra with out := s.extra.out.drop (unsigned 32 (ctrl s.control 1)) }⟩
/-- The place in the output between the two halves of a triple, and behind it. -/
def middle (s : Streams) (newpos : Int) : Int := wrap 64 (newpos + ctrl s.control 0)
def next (s : Streams) (newpos : Int) : Int := wrap 64 (middle s newpos + ctrl s.control 1)
def nextOld (s : Streams) (oldpos : Int) : Int := wrap 64 (wrap 64 (oldpos + ctrl s.control 0) + ctrl s.control 2)

def firstHalf (s : Streams) (oldpos newpos : Int) : List Access :=
  [.filled newpos (unsigned 32 (ctrl s.control 0)), .added oldpos newpos (ctrl s.control 0)]

inductive Round (newSize : Int) (s : Streams) (oldpos newpos : Int) : Steps (Streams × Int × Int) → Prop
  | control (short : s.control.out.length < 24) : Round newSize s oldpos newpos ⟨.error (shortOf s.control.fin), []⟩
  | corrupt (read : 24 ≤ s.control.out.length) (bad : ¬ Opens newSize s newpos) :
      Round newSize s oldpos newpos ⟨.error (.returns 1), []⟩
  | diff (opens : Opens newSize s newpos) (short : s.diff.out.length < unsigned 32 (ctrl s.control 0)) :
      Round newSize s oldpos newpos ⟨.error (shortOf s.diff.fin), [.filled newpos s.diff.out.length]⟩
  | count (opens : Opens newSize s newpos) (there : unsigned 32 (ctrl s.control 0) ≤ s.diff.out.length)
      (large : 2 ^ 31 ≤ ctrl s.control 0) :
      Round newSize s oldpos newpos ⟨.error .loops, firstHalf s oldpos newpos⟩
  | overrun (opens : Opens newSize s newpos) (there : unsigned 32 (ctrl s.control 0) ≤ s.diff.out.length)
      (small : ctrl s.control 0 < 2 ^ 31) (bad : newSize < next s newpos) :
      Round newSize s oldpos newpos ⟨.error (.returns 1), firstHalf s oldpos newpos⟩
  | extra (passes : Passes newSize s newpos) (short : s.extra.out.length < unsigned 32 (ctrl s.control 1)) :
      Round newSize s oldpos newpos ⟨.error (shortOf s.extra.fin),
        firstHalf s oldpos newpos ++ [.filled (middle s newpos) s.extra.out.length]⟩
  | done (passes : Passes newSize s newpos) (there : unsigned 32 (ctrl s.control 1) ≤ s.extra.out.length) :
      Round newSize s oldpos newpos ⟨.ok (s.behind, nextOld s oldpos, next s newpos),
        firstHalf s oldpos newpos ++ [.filled (middle s newpos) (unsigned 32 (ctrl s.control 1))]⟩

theorem fillOutput_there {pos : Int} {size : Nat} {stream : Stream} (there : size ≤ stream.out.length) :
    fillOutput pos size stream = ⟨.ok { stream with out := stream.out.drop size },[.filled pos size]⟩ := by
  rw [fillOutput,note_bind,if_pos there,min_eq_left there]
  rfl
theorem fillOutput_short {pos : Int} {size : Nat} {stream : Stream} (short : stream.out.length < size) :
    fillOutput pos size stream = ⟨.error (shortOf stream.fin),[.filled pos stream.out.length]⟩ := by
  rw [fillOutput,note_bind,if_neg (by omega),min_eq_right (by omega)]
  rfl

theorem applyTriple_round (newSize : Int) (s : Streams) (oldpos newpos : Int) :
    Round newSize s oldpos newpos (applyTriple newSize s oldpos newpos) := by
  unfold applyTriple
  split
  · rename_i short
    exact .control short
  rename_i read
  simp only
  split
  · rename_i negative
    exact .corrupt (by omega) fun opens => by have := opens.count0; have := opens.count1; omega
  rename_i counts
  split
  · rename_i beyond
    exact .corrupt (by omega) fun opens => by have := opens.room; omega
  rename_i room
  have opens : Opens newSize s newpos := ⟨by omega,by omega,by omega,by omega⟩
  rcases lt_or_ge s.diff.out.length (unsigned 32 (ctrl s.control 0)) with short | there
  · rw [fillOutput_short short]
    exact .diff opens short
  rw [fillOutput_there there,bind_eq_ok rfl,note_bind]
  split
  · rename_i large
    exact .count opens there large
  rename_i small
  split
  · rename_i bad
    exact .overrun opens there (by omega) bad
  rename_i further
  have passes : Passes newSize s newpos := ⟨opens,there,by omega,by omega⟩
  rcases lt_or_ge s.extra.out.length (unsigned 32 (ctrl s.control 1)) with short | there'
  · rw [fillOutput_short short]
    exact .extra passes short
  · rw [fillOutput_there there']
    exact .done passes there'

/-! ## The loop -/

/-- A triple that is reached is not served: a stream whose input was cut off is asked for more bytes
    than it has, or the first count is out of reach of an int. -/
inductive Stalls (newSize : Int) : Streams → Int → Prop
  | control {s : Streams} {newpos : Int} (more : newpos < newSize) (short : s.control.out.length < 24)
      (cut : s.control.fin = .starved) : Stalls newSize s newpos
  | diff {s : Streams} {newpos : Int} (more : newpos < newSize) (opens : Opens newSize s newpos)
      (short : s.diff.out.length < unsigned 32 (ctrl s.control 0)) (cut : s.diff.fin = .starved) : Stalls newSize s newpos
  | count {s : Streams} {newpos : Int} (more : newpos < newSize) (opens : Opens newSize s newpos)
      (there : unsigned 32 (ctrl s.control 0) ≤ s.diff.out.length) (large : 2 ^ 31 ≤ ctrl s.control 0) :
      Stalls newSize s newpos
  | extra {s : Streams} {newpos : Int} (more : newpos < newSize) (passes : Passes newSize s newpos)
      (short : s.extra.out.length < unsigned 32 (ctrl s.control 1)) (cut : s.extra.fin = .starved) :
      Stalls newSize s newpos
  | later {s : Streams} {newpos : Int} (more : newpos < newSize) (passes : Passes newSize s newpos)
      (there : unsigned 32 (ctrl s.control 1) ≤ s.extra.out.length) (rest : Stalls newSize s.behind (next s newpos)) :
      Stalls newSize s newpos

theorem shortOf_loops {fin : StreamEnd} : shortOf fin = .loops ↔ fin = .starved := by
  cases fin <;> simp [shortOf]

variable {newpos : Int}

private theorem stalls_control {newSize : Int} {s : Streams} (more : newpos < newSize) (short : s.control.out.length < 24) :
    Stalls newSize s newpos ↔ s.control.fin = .starved := by
  refine ⟨fun stalls => ?_,fun cut => .control more short cut⟩
  cases stalls with
  | control _ _ cut => exact cut
  | diff _ opens => exact absurd opens.read (by omega)
  | count _ opens => exact absurd opens.read (by omega)
  | extra _ passes => exact absurd passes.read (by omega)
  | later _ passes => exact absurd passes.read (by omega)
private theorem not_stalls_corrupt {newSize : Int} {s : Streams} (read : 24 ≤ s.control.out.length)
    (bad : ¬ Opens newSize s newpos) : ¬ Stalls newSize s newpos := by
  intro stalls
  cases stalls with
  | control _ short => omega
  | diff _ opens => exact bad opens
  | count _ opens => exact bad opens
  | extra _ passes => exact bad passes.toOpens
  | later _ passes => exact bad passes.toOpens
private theorem stalls_diff {newSize : Int} {s : Streams} (more : newpos < newSize) (opens : Opens newSize s newpos)
    (short : s.diff.out.length < unsigned 32 (ctrl s.control 0)) :
    Stalls newSize s newpos ↔ s.diff.fin = .starved := by
  refine ⟨fun stalls => ?_,fun cut => .diff more opens short cut⟩
  cases stalls with
  | control _ short => exact absurd opens.read (by omega)
  | diff _ _ _ cut => exact cut
  | count _ _ there => omega
  | extra _ passes => exact absurd passes.diff (by omega)
  | later _ passes => exact absurd passes.diff (by omega)
private theorem not_stalls_overrun {newSize : Int} {s : Streams} (opens : Opens newSize s newpos)
    (there : unsigned 32 (ctrl s.control 0) ≤ s.diff.out.length) (small : ctrl s.control 0 < 2 ^ 31)
    (bad : newSize < next s newpos) : ¬ Stalls newSize s newpos := by
  intro stalls
  cases stalls with
  | control _ short => exact absurd opens.read (by omega)
  | diff _ _ short => omega
  | count _ _ _ large => omega
  | extra _ passes => exact absurd passes.further (not_le.mpr bad)
  | later _ passes => exact absurd passes.further (not_le.mpr bad)
private theorem stalls_extra {newSize : Int} {s : Streams} (more : newpos < newSize) (passes : Passes newSize s newpos)
    (short : s.extra.out.length < unsigned 32 (ctrl s.control 1)) :
    Stalls newSize s newpos ↔ s.extra.fin = .starved := by
  refine ⟨fun stalls => ?_,fun cut => .extra more passes short cut⟩
  cases stalls with
  | control _ short => exact absurd passes.read (by omega)
  | diff _ _ short => exact absurd passes.diff (by omega)
  | count _ _ _ large => exact absurd passes.small (by omega)
  | extra _ _ _ cut => exact cut
  | later _ _ there => omega
private theorem stalls_later {newSize : Int} {s : Streams} (more : newpos < newSize) (passes : Passes newSize s newpos)
    (there : unsigned 32 (ctrl s.control 1) ≤ s.extra.out.length) :
    Stalls newSize s newpos ↔ Stalls newSize s.behind (next s newpos) := by
  refine ⟨fun stalls => ?_,fun rest => .later more passes there rest⟩
  cases stalls with
  | control _ short => exact absurd passes.read (by omega)
  | diff _ _ short => exact absurd passes.diff (by omega)
  | count _ _ _ large => exact absurd passes.small (by omega)
  | extra _ _ short => omega
  | later _ _ _ rest => exact rest

private theorem patchLoop_loops_iff (newSize : Int) {fuel : Nat} {s : Streams} (enough : s.control.out.length < 24 * fuel)
    (oldpos newpos : Int) : (patchLoop newSize fuel s oldpos newpos).result = .error .loops ↔ Stalls newSize s newpos := by
  induction fuel generalizing s oldpos newpos with
  | zero => omega
  | succ fuel ih =>
    rw [patchLoop]
    by_cases more : newpos < newSize
    · rw [if_pos more]
      have round := applyTriple_round newSize s oldpos newpos
      generalize applyTriple newSize s oldpos newpos = run at round
      cases round with
      | control short =>
        rw [stalls_control more short,bind_eq_error rfl]
        simp [shortOf_loops]
      | corrupt read bad =>
        rw [bind_eq_error rfl]
        exact iff_of_false (by simp) (not_stalls_corrupt read bad)
      | diff opens short =>
        rw [stalls_diff more opens short,bind_eq_error rfl]
        simp [shortOf_loops]
      | count opens there large =>
        exact iff_of_true rfl (.count more opens there large)
      | overrun opens there small bad =>
        rw [bind_eq_error rfl]
        exact iff_of_false (by simp) (not_stalls_overrun opens there small bad)
      | extra passes short =>
        rw [stalls_extra more passes short,bind_eq_error rfl]
        simp [shortOf_loops]
      | done passes there =>
        rw [stalls_later more passes there,bind_result rfl]
        refine ih ?_ _ _
        have read := passes.read
        simp only [Streams.behind,List.length_drop]
        omega
    · rw [if_neg more]
      refine iff_of_false (by simp) fun stalls => ?_
      cases stalls <;> contradiction

/-! ## The loop that fills the output -/

private theorem addOld_length {old : Old} {oldpos : Int} {diff sum : Bytes} (added : addOld old oldpos diff = some sum) :
    sum.length = diff.length := by
  induction diff generalizing oldpos sum with
  | nil =>
    obtain rfl := Option.some.inj added
    rfl
  | cons d ds ih =>
    obtain ⟨o,_,later⟩ := Option.bind_eq_some_iff.mp added
    obtain ⟨rest,found,last⟩ := Option.bind_eq_some_iff.mp later
    obtain rfl := Option.some.inj last
    rw [List.length_cons,List.length_cons,ih found]

/-- How `ApplyBSDiffPatchMem` ends when its output is filled in. -/
def outcome : Ret Bytes → Option (Except Halt Unit)
  | .ok _ => some (.ok ())
  | .err code => some (.error (.returns code))
  | .stuck => none

theorem fillBuffer_there {size : Nat} {stream : Stream} (there : size ≤ stream.out.length) :
    orFail (fillBuffer size stream) = .ok (stream.out.take size, { stream with out := stream.out.drop size }) := by
  rw [fillBuffer,if_pos there]
  rfl
theorem fillBuffer_short {size : Nat} {stream : Stream} {k : Bytes × Stream → Ret Bytes} {result : Except Halt Unit}
    (short : stream.out.length < size) (ended : outcome (orFail (fillBuffer size stream) >>= k) = some result) :
    .error (shortOf stream.fin) = result := by
  rw [fillBuffer,if_neg (by omega)] at ended
  cases fin : stream.fin with
  | starved =>
    rw [fin] at ended
    cases ended
  | ended | corrupt =>
    rw [fin] at ended
    exact Option.some.inj ended

section Filling
variable (old : Old) (newSize : Int) (fuel : Nat) (s : Streams) (oldpos newpos : Int) (buf : Bytes)

/-- A round of the loop from where the second count is checked. -/
def fillExtra (dstream : Stream) : Ret Bytes :=
  if wrap 64 (newpos + ctrl s.control 0 + ctrl s.control 1) > newSize then .err 1
  else do
    let (extra, estream) ← orFail (fillBuffer (unsigned 32 (ctrl s.control 1)) s.extra)
    let buf ← Ret.need (setSlice buf (newpos + ctrl s.control 0) extra)
    controlLoop old newSize fuel { s.control with out := s.control.out.drop 24 } dstream estream (nextOld s oldpos)
      (wrap 64 (newpos + ctrl s.control 0 + ctrl s.control 1)) buf
/-- A round of the loop from where the first count has passed its check. -/
def fillDiff : Ret Bytes := do
  let (diff, dstream) ← orFail (fillBuffer (unsigned 32 (ctrl s.control 0)) s.diff)
  if 2 ^ 31 ≤ ctrl s.control 0 then .stuck
  else do
    let sum ← Ret.need (addOld old oldpos diff)
    let buf ← Ret.need (setSlice buf newpos sum)
    fillExtra old newSize fuel s oldpos newpos buf dstream

variable {old newSize fuel s oldpos newpos buf} {result : Except Halt Unit}

theorem controlLoop_read (more : newpos < newSize) (read : 24 ≤ s.control.out.length) :
    controlLoop old newSize (fuel + 1) s.control s.diff s.extra oldpos newpos buf =
      if ctrl s.control 0 < 0 ∨ ctrl s.control 1 < 0 then .err 1
      else if wrap 64 (newpos + ctrl s.control 0) > newSize then .err 1
      else fillDiff old newSize fuel s oldpos newpos buf := by
  rw [controlLoop,if_pos more,fillBuffer_there read]
  rfl
theorem controlLoop_opens (more : newpos < newSize) (opens : Opens newSize s newpos) :
    controlLoop old newSize (fuel + 1) s.control s.diff s.extra oldpos newpos buf =
      fillDiff old newSize fuel s oldpos newpos buf := by
  have count0 := opens.count0
  have count1 := opens.count1
  rw [controlLoop_read more opens.read,if_neg (by omega),if_neg (not_lt.mpr opens.room)]
/-- With a small count the old data is added inside of the output, and the place does not wrap. -/
theorem fillDiff_there (opens : Opens newSize s newpos) (size : buf.length = newSize) (fits : newSize < 2 ^ 63)
    (there : unsigned 32 (ctrl s.control 0) ≤ s.diff.out.length) (small : ctrl s.control 0 < 2 ^ 31)
    (ended : outcome (fillDiff old newSize fuel s oldpos newpos buf) = some result) :
    ∃ filled : Bytes, filled.length = newSize ∧ newpos + ctrl s.control 0 = middle s newpos ∧
      outcome (fillExtra old newSize fuel s oldpos newpos filled s.behind.diff) = some result := by
  have count0 := opens.count0
  rw [fillDiff,fillBuffer_there there,Ret.ok_bind] at ended
  simp only [if_neg (not_le.mpr small)] at ended
  cases added : addOld old oldpos (s.diff.out.take (unsigned 32 (ctrl s.control 0))) with
  | none =>
    rw [added] at ended
    cases ended
  | some sum =>
    rw [added,Ret.need_some,Ret.ok_bind] at ended
    cases stored : setSlice buf newpos sum with
    | none =>
      rw [stored] at ended
      cases ended
    | some filled =>
      rw [stored] at ended
      have length := addOld_length added
      have count : unsigned 32 (ctrl s.control 0) = ctrl s.control 0 := by
        unfold unsigned
        omega
      rw [List.length_take,Nat.min_eq_left there] at length
      refine ⟨filled,by rw [setSlice_length stored,size],?_,ended⟩
      unfold setSlice at stored
      split at stored
      · exact (wrap_small (by omega) (by omega : newpos + ctrl s.control 0 < 2 ^ 63)).symm
      · cases stored

/-- Where the loop that fills the output returns, the steps return in the same way. -/
theorem controlLoop_steps (fits : newSize < 2 ^ 63) (size : buf.length = newSize)
    (ended : outcome (controlLoop old newSize fuel s.control s.diff s.extra oldpos newpos buf) = some result) :
    (patchLoop newSize fuel s oldpos newpos).result = result := by
  induction fuel generalizing s oldpos newpos buf with
  | zero => cases ended
  | succ fuel ih =>
    rw [patchLoop]
    by_cases more : newpos < newSize
    · rw [if_pos more]
      have round := applyTriple_round newSize s oldpos newpos
      generalize applyTriple newSize s oldpos newpos = run at round
      cases round with
      | control short =>
        rw [controlLoop,if_pos more] at ended
        exact fillBuffer_short short ended
      | corrupt read bad =>
        rw [controlLoop_read more read] at ended
        split at ended
        · exact Option.some.inj ended
        · split at ended
          · exact Option.some.inj ended
          · exact absurd ⟨read,by omega,by omega,by omega⟩ bad
      | diff opens short =>
        rw [controlLoop_opens more opens,fillDiff] at ended
        exact fillBuffer_short short ended
      | count opens there large =>
        rw [controlLoop_opens more opens,fillDiff,fillBuffer_there there,Ret.ok_bind] at ended
        simp only [if_pos large] at ended
        cases ended
      | overrun opens there small bad =>
        rw [controlLoop_opens more opens] at ended
        obtain ⟨filled,_,place,ended⟩ := fillDiff_there opens size fits there small ended
        have beyond : wrap 64 (middle s newpos + ctrl s.control 1) > newSize := bad
        rw [fillExtra,place,if_pos beyond] at ended
        exact Option.some.inj ended
      | extra passes short =>
        rw [controlLoop_opens more passes.toOpens] at ended
        obtain ⟨filled,_,place,ended⟩ := fillDiff_there passes.toOpens size fits passes.diff passes.small ended
        have inside : ¬ wrap 64 (middle s newpos + ctrl s.control 1) > newSize := not_lt.mpr passes.further
        rw [fillExtra,place,if_neg inside] at ended
        exact fillBuffer_short short ended
      | done passes there =>
        rw [controlLoop_opens more passes.toOpens] at ended
        obtain ⟨filled,length,place,ended⟩ := fillDiff_there passes.toOpens size fits passes.diff passes.small ended
        have inside : ¬ wrap 64 (middle s newpos + ctrl s.control 1) > newSize := not_lt.mpr passes.further
        rw [fillExtra,place,if_neg inside,fillBuffer_there there,Ret.ok_bind] at ended
        simp only at ended
        cases stored : setSlice filled (middle s newpos) (s.extra.out.take (unsigned 32 (ctrl s.control 1))) with
        | none =>
          rw [stored] at ended
          cases ended
        | some full =>
          rw [stored] at ended
          exact ih (s := s.behind) (by rw [setSlice_length stored,length]) ended
    · rw [if_neg more]
      rw [controlLoop,if_neg more] at ended
      exact Option.some.inj ended

end Filling

/-! ## The whole call -/

/-- A patch: its size, and the memory from its first byte on, whatever stands before and behind it. -/
structure Blob where
  size : Nat
  memory : Int → UInt8
def blobOf (bytes : Bytes) : Blob := ⟨bytes.length, fun i => bytes.getD i.toNat 0⟩
def Blob.bytes (patch : Blob) (offset : Int) (n : Nat) : Bytes := (List.range n).map fun i => patch.memory (offset + i)

variable (L : Libs)

def ctrlLen (patch : Blob) (offset : Int) : Int := offtin (patch.bytes (offset + 8) 8)
def dataLen (patch : Blob) (offset : Int) : Int := offtin (patch.bytes (offset + 16) 8)
def newSize (patch : Blob) (offset : Int) : Int := offtin (patch.bytes (offset + 24) 8)
/-- What the three decompressors deliver; `avail_in` is an unsigned int. -/
def streams (patch : Blob) (offset : Int) : Streams :=
  let at0 := offset + 32
  let at1 := at0 + ctrlLen patch offset
  let at2 := at1 + dataLen patch offset
  ⟨L.bzDecode (patch.bytes at0 (unsigned 32 (ctrlLen patch offset))),
    L.bzDecode (patch.bytes at1 (unsigned 32 (dataLen patch offset))),
    L.bzDecode (patch.bytes at2 (unsigned 32 (patch.size - at2)))⟩

def Starts (patch : Blob) (offset : Int) : Prop :=
  patch.bytes offset 8 = bsdiffMagic ∧ ¬ (ctrlLen patch offset < 0 ∨ dataLen patch offset < 0 ∨ newSize patch offset < 0) ∧
    L.room (newSize patch offset).toNat = true

/-- `ApplyBSDiffPatchMem`. -/
def applyMem (patch : Blob) (offset : Int) : Steps Unit :=
  if patch.bytes offset 8 ≠ bsdiffMagic then stop (.returns 1)
  else if ctrlLen patch offset < 0 ∨ dataLen patch offset < 0 ∨ newSize patch offset < 0 then stop (.returns 1)
  else if L.room (newSize patch offset).toNat then
    patchLoop (newSize patch offset) ((streams L patch offset).control.out.length + 1) (streams L patch offset) 0 0
  else stop (.returns 1)

def Returns (run : Steps Unit) : Prop := run.result ≠ .error .loops

/-- The call returns if and only if the patch is rejected before the loop or the loop comes to no
    triple that is not served. -/
theorem apply_returns_iff (patch : Blob) (offset : Int) :
    Returns (applyMem L patch offset) ↔
      (Starts L patch offset → ¬ Stalls (newSize patch offset) (streams L patch offset) 0) := by
  unfold Returns applyMem Starts
  split
  · rename_i bad
    simp [bad]
  rename_i magic
  split
  · rename_i negative
    simp [negative]
  rename_i lengths
  split
  · rename_i room
    rw [not_ne_iff] at magic
    rw [ne_eq, patchLoop_loops_iff _ (by omega)]
    simp [magic, lengths, room]
  · rename_i full
    simp [full]

/-- A patch that is cut off behind its header, which announces one byte of output. -/
def cutPatch : Blob := ⟨32, fun i => (ascii "BSDIFF40" ++ List.replicate 16 0 ++ [1]).getD i.toNat 0⟩

theorem cutPatch_loops : ¬ Returns (applyMem StoredLibs.storedLibs cutPatch 0) := by
  unfold Returns
  decide +kernel

end Recovery.BspatchSteps
