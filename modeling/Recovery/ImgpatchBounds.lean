import Recovery.BspatchSteps
import Recovery.PatchHash

/-!
What `ApplyImagePatch` and the header parsing of `ApplyBSDiffPatchMem` read, from a patch and a
source that stand somewhere in memory.
-/
namespace Recovery.ImgpatchBounds
open Memory Numbers Bspatch Imgpatch Tracing Tracing.Traced
open BspatchSteps (Blob blobOf Halt applyMem Returns)

inductive Access where
  | patch (offset : Int) (count : Nat)
  | source (offset : Int) (count : Nat)
  /-- The position of the next chunk record. -/
  | record (pos : Int)
  deriving DecidableEq, Repr

/-- How the sink takes the output of a chunk. -/
inductive Sunk where
  | whole
  | short
  | never
  deriving DecidableEq, Repr

abbrev Steps := Traced Access Halt

/-! ## The chunk records -/

section Chunks
variable (L : Libs) (taken : Bytes → Nat → Nat) (patch source : Blob) (bonus : Option Nat)

/-- The fields of a normal or a deflate chunk whose record starts at a position. -/
def srcStart (pos : Int) : Int := read8 (patch.bytes (pos + 4) 8)
def srcLen (pos : Int) : Int := read8 (patch.bytes (pos + 12) 8)
def patchOffset (pos : Int) : Int := read8 (patch.bytes (pos + 20) 8)
def expandedLen (pos : Int) : Nat := unsigned 64 (read8 (patch.bytes (pos + 28) 8))
def rawLen (pos : Int) : Int := read4 (patch.bytes (pos + 4) 4)
def bonusSize (i : Nat) : Nat := if i = 1 then bonus.getD 0 else 0

/-- The header parsing of `ApplyBSDiffPatchMem`. -/
def readHeader (offset : Int) : Steps Unit := do
  note (.patch offset 8)
  if patch.bytes offset 8 = bsdiffMagic then note (.patch (offset + 8) 24) else pure ()
def patched : Except Halt Unit → Steps Bool
  | .ok () => pure true
  | .error (.returns _) => pure false
  | .error .loops => stop .loops
/-- `ApplyBSDiffPatchMem`: whether it succeeds. -/
def applyPatch (offset : Int) : Steps Bool := do
  readHeader patch offset
  patched (applyMem L patch offset).result

/-- The input that a deflate chunk hands to `inflate`; `avail_in` is an unsigned int. -/
def deflated (pos : Int) : Bytes := source.bytes (srcStart patch pos) (unsigned 32 (srcLen patch pos))
/-- The source of a deflate chunk inflates to the expected length, up to the bonus data. -/
def Inflates (i : Nat) (pos : Int) : Prop :=
  (L.inflate (deflated patch source pos)).fin = .ended ∧
    (L.inflate (deflated patch source pos)).out.length + bonusSize bonus i = unsigned 32 (expandedLen patch pos)

instance (i : Nat) (pos : Int) : Decidable (Inflates L patch source bonus i pos) := inferInstanceAs (Decidable (_ ∧ _))

def kindAt (pos : Int) : Option ChunkType :=
  let type := read4 (patch.bytes pos 4)
  if type = chunkNormal then some .normal
  else if type = chunkRaw then some .raw
  else if type = chunkDeflate then some .deflate
  else none

/-- The position behind a chunk whose output went to the sink. -/
def sinkTo (sunk : Sunk) (pos : Int) : Steps Int :=
  match sunk with
  | .whole => pure pos
  | .short => stop (.returns (-1))
  | .never => stop .loops

/-- A normal chunk. The code of the patch, and so what the sink says, is not looked at. -/
def normalChunk (sunk : Sunk) (pos : Int) : Steps Int :=
  if pos + 28 > patch.size then stop (.returns (-1))
  else do
    note (.patch (pos + 4) 24)
    let written ← applyPatch L patch (patchOffset patch pos)
    if written ∧ sunk = .never then stop .loops else pure (pos + 28)
def rawChunk (sunk : Sunk) (pos : Int) : Steps Int :=
  if pos + 8 > patch.size then stop (.returns (-1))
  else do
    note (.patch (pos + 4) 4)
    if pos + 8 + rawLen patch pos > patch.size then stop (.returns (-1))
    else do
      note (.patch (pos + 8) (unsigned 64 (rawLen patch pos)))
      sinkTo sunk (pos + 8 + rawLen patch pos)
/-- A deflate chunk. `taken` bytes of an input are read when there is room for a number of bytes. -/
def deflateChunk (i : Nat) (sunk : Sunk) (pos : Int) : Steps Int :=
  if pos + 64 > patch.size then stop (.returns (-1))
  else do
    note (.patch (pos + 4) 60)
    if ¬ L.room (expandedLen patch pos) then stop (.returns (-1))
    else do
      note (.source (srcStart patch pos) (taken (deflated patch source pos) (unsigned 32 (expandedLen patch pos))))
      if ¬ Inflates L patch source bonus i pos then stop (.returns (-1))
      else do
        let patched ← applyPatch L patch (patchOffset patch pos)
        if patched then sinkTo sunk (pos + 64) else stop (.returns (-1))
def chunkOf (i : Nat) (sunk : Sunk) (pos : Int) : Option ChunkType → Steps Int
  | some .normal => normalChunk L patch sunk pos
  | some .raw => rawChunk patch sunk pos
  | some .deflate => deflateChunk L taken patch source bonus i sunk pos
  | none => stop (.returns (-1))
def readChunk (i : Nat) (sunk : Sunk) (pos : Int) (kind : Option ChunkType) : Steps Int := do
  note (.patch pos 4)
  chunkOf L taken patch source bonus i sunk pos kind
def applyChunk (i : Nat) (sunk : Sunk) (pos : Int) : Steps Int :=
  if pos + 4 > patch.size then stop (.returns (-1))
  else readChunk L taken patch source bonus i sunk pos (kindAt patch pos)

/-- The loop of `ApplyImagePatch`. -/
def chunkSteps (sunk : Nat → Sunk) : Nat → Nat → Int → Steps Unit
  | 0, _, pos => note (.record pos)
  | left + 1, i, pos => do
    note (.record pos)
    let pos ← applyChunk L taken patch source bonus i (sunk i) pos
    chunkSteps sunk left (i + 1) pos

def numChunks : Nat := (read4 (patch.bytes 8 4)).toNat

/-- `ApplyImagePatch` on a patch of at least 12 bytes. -/
def applyImage (sunk : Nat → Sunk) : Steps Unit := do
  note (.patch 0 8)
  if patch.bytes 0 8 ≠ imgdiffMagic then stop (.returns (-1))
  else do
    note (.patch 8 4)
    chunkSteps L taken patch source bonus sunk (numChunks patch) 0 12

/-! ## What a record must hold -/

/-- The record is inside of the patch as the code checks it. -/
def Fits (pos : Int) : ChunkType → Prop
  | .normal => pos + 28 ≤ patch.size
  | .raw => pos + 8 ≤ patch.size ∧ pos + 8 + rawLen patch pos ≤ patch.size
  | .deflate => pos + 64 ≤ patch.size
def Complete (pos : Int) (type : ChunkType) : Prop := kindAt patch pos = some type ∧ Fits patch pos type
/-- A chunk after which the loop goes on, if the sink takes everything. -/
def Served (i : Nat) (pos : Int) : ChunkType → Prop
  | .normal => Returns (applyMem L patch (patchOffset patch pos))
  | .raw => True
  | .deflate => L.room (expandedLen patch pos) = true ∧ Inflates L patch source bonus i pos ∧
      (applyMem L patch (patchOffset patch pos)).result = .ok ()
def next (pos : Int) : ChunkType → Int
  | .normal => pos + 28
  | .raw => pos + 8 + rawLen patch pos
  | .deflate => pos + 64

/-- The header of a bsdiff patch is inside: its magic, and the lengths when the magic is right. -/
def HeaderInside (offset : Int) : Prop :=
  0 ≤ offset ∧ offset + 8 ≤ patch.size ∧ (patch.bytes offset 8 = bsdiffMagic → offset + 32 ≤ patch.size)
def BytesInside (blob : Blob) (offset : Int) (count : Nat) : Prop :=
  ∀ k < count, 0 ≤ offset + (k : Nat) ∧ offset + (k : Nat) < blob.size
/-- The offsets and lengths of a record point into the patch and the source. -/
def Sound (i : Nat) (pos : Int) : ChunkType → Prop
  | .normal => HeaderInside patch (patchOffset patch pos)
  | .raw => 0 ≤ rawLen patch pos
  | .deflate => L.room (expandedLen patch pos) = true →
      BytesInside source (srcStart patch pos)
        (taken (deflated patch source pos) (unsigned 32 (expandedLen patch pos))) ∧
      (Inflates L patch source bonus i pos → HeaderInside patch (patchOffset patch pos))

/-- A record that is reached: those before it are complete and served. -/
inductive Reached : Nat → Int → Prop
  | first : Reached 0 12
  | next {i : Nat} {pos : Int} {type : ChunkType} (before : Reached i pos) (more : i < numChunks patch)
      (complete : Complete patch pos type) (served : Served L patch source bonus i pos type) :
      Reached (i + 1) (next patch pos type)

def Inside : Access → Prop
  | .patch offset count => BytesInside patch offset count
  | .source offset count => BytesInside source offset count
  | .record _ => True
def positions (trace : List Access) : List Int := trace.filterMap fun
  | .record pos => some pos
  | _ => none
/-- Everything that is read is inside, and the position of the header goes up inside of the patch. -/
structure Safe (run : Steps Unit) : Prop where
  reads : Within (Inside patch source) run
  rising : (positions run.trace).Pairwise (· < ·)
  within : ∀ pos ∈ positions run.trace, pos ≤ patch.size

/-! ## What a chunk reads -/

variable {L taken patch source bonus}

variable {offset : Int} {α : Type}

theorem bytesInside_iff {blob : Blob} {count : Nat} (some : 0 < count) :
    BytesInside blob offset count ↔ 0 ≤ offset ∧ offset + count ≤ blob.size := by
  constructor
  · intro inside
    have first := inside 0 some
    have last := inside (count - 1) (by omega)
    omega
  · rintro ⟨low,high⟩ k small
    omega
theorem within_patch {count : Nat} (some : 0 < count) :
    Within (Inside patch source) (note (.patch offset count) : Steps Unit) ↔
      0 ≤ offset ∧ offset + count ≤ patch.size := by
  rw [within_note]
  exact bytesInside_iff some
theorem within_note_bind {access : Access} {k : Unit → Steps α} (inside : Inside patch source access) :
    Within (Inside patch source) (note access >>= k) ↔ Within (Inside patch source) (k ()) := by
  rw [within_bind_ok rfl,within_note]
  exact and_iff_right inside
theorem within_record {pos : Int} {k : Unit → Steps α} :
    Within (Inside patch source) (note (.record pos) >>= k) ↔ Within (Inside patch source) (k ()) :=
  within_note_bind trivial
theorem inside_patch {count : Nat} (low : 0 ≤ offset) (high : offset + count ≤ patch.size) :
    Inside patch source (.patch offset count) := fun k small => by omega

private theorem readHeader_within (offset : Int) :
    Within (Inside patch source) (readHeader patch offset) ↔ HeaderInside patch offset := by
  rw [readHeader,within_bind_ok rfl,within_patch (by omega),HeaderInside]
  by_cases magic : patch.bytes offset 8 = bsdiffMagic
  · rw [if_pos magic,within_patch (by omega)]
    simp only [magic,true_implies]
    omega
  · rw [if_neg magic]
    simp only [magic,within_pure,false_implies,and_true]
    rfl
theorem readHeader_result (offset : Int) : (readHeader patch offset).result = .ok () := by
  rw [readHeader,bind_result rfl]
  split <;> rfl
theorem applyPatch_within (offset : Int) :
    Within (Inside patch source) (applyPatch L patch offset) ↔ HeaderInside patch offset := by
  rw [applyPatch,within_bind_ok (readHeader_result offset),readHeader_within]
  refine and_iff_left ?_
  rcases (applyMem L patch offset).result with (_ | _) | _ <;> simp [patched]
theorem applyPatch_result (offset : Int) :
    (applyPatch L patch offset).result = (patched (applyMem L patch offset).result).result := by
  rw [applyPatch,bind_result (readHeader_result offset)]
theorem applyPatch_true :
    (applyPatch L patch offset).result = .ok true ↔ (applyMem L patch offset).result = .ok () := by
  rw [applyPatch_result]
  rcases (applyMem L patch offset).result with (_ | _) | _ <;> simp [patched]
theorem applyPatch_returns :
    (∃ done, (applyPatch L patch offset).result = .ok done) ↔ Returns (applyMem L patch offset) := by
  rw [applyPatch_result,Returns]
  rcases (applyMem L patch offset).result with (_ | _) | _ <;> simp [patched]

private theorem read4_range (p : Bytes) : -(2 ^ 31) ≤ read4 p ∧ read4 p < 2 ^ 31 := by
  have low := Int.le_bmod (x := ((byteAt p 3 <<< 24 ||| byteAt p 2 <<< 16 ||| byteAt p 1 <<< 8 ||| byteAt p 0 : Nat) : Int))
    (m := 2 ^ 32) (by decide)
  have high := Int.bmod_lt (x := ((byteAt p 3 <<< 24 ||| byteAt p 2 <<< 16 ||| byteAt p 1 <<< 8 ||| byteAt p 0 : Nat) : Int))
    (m := 2 ^ 32) (by decide)
  exact ⟨low,high⟩
theorem sinkTo_within (sunk : Sunk) (pos : Int) : Within (Inside patch source) (sinkTo sunk pos) := by
  cases sunk <;> simp [sinkTo]

variable {pos : Int} (low : 0 ≤ pos) (sunk : Sunk)

include low in
private theorem normalChunk_within : Within (Inside patch source) (normalChunk L patch sunk pos) ↔
    (Fits patch pos .normal → HeaderInside patch (patchOffset patch pos)) := by
  unfold normalChunk
  by_cases long : pos + 28 ≤ patch.size
  · rw [if_neg (by omega),within_note_bind (inside_patch (by omega) (by omega)),within_bind,applyPatch_within]
    have fits : Fits patch pos .normal := long
    simp only [fits,true_implies]
    refine and_iff_left fun written _ => ?_
    split <;> simp
  · rw [if_pos (by omega)]
    simp [Fits,long]
include low in
private theorem rawChunk_within (size : patch.size < 2 ^ 63) : Within (Inside patch source) (rawChunk patch sunk pos) ↔
    (Fits patch pos .raw → 0 ≤ rawLen patch pos) := by
  unfold rawChunk
  by_cases long : pos + 8 ≤ patch.size
  · rw [if_neg (by omega),within_note_bind (inside_patch (by omega) (by omega))]
    by_cases data : pos + 8 + rawLen patch pos ≤ patch.size
    · rw [if_neg (by omega),within_bind_ok rfl,within_note]
      have fits : Fits patch pos .raw := ⟨long,data⟩
      simp only [fits,true_implies,sinkTo_within,and_true]
      have range := read4_range (patch.bytes (pos + 4) 4)
      rw [← rawLen] at range
      constructor
      · -- a negative length is a huge one
        intro inside
        by_contra negative
        have count : unsigned 64 (rawLen patch pos) = 2 ^ 64 + rawLen patch pos := by
          unfold unsigned
          omega
        have bound := (bytesInside_iff (by omega)).mp inside
        omega
      · intro positive
        have count : (unsigned 64 (rawLen patch pos) : Int) = rawLen patch pos := by
          unfold unsigned
          omega
        exact fun k small => by omega
    · rw [if_pos (by omega)]
      simp [Fits,data]
  · rw [if_pos (by omega)]
    simp [Fits,long]

include low in
private theorem deflateChunk_within (i : Nat) :
    Within (Inside patch source) (deflateChunk L taken patch source bonus i sunk pos) ↔
      (Fits patch pos .deflate → Sound L taken patch source bonus i pos .deflate) := by
  unfold deflateChunk
  by_cases long : pos + 64 ≤ patch.size
  · rw [if_neg (by omega),within_note_bind (inside_patch (by omega) (by omega))]
    have fits : Fits patch pos .deflate := long
    simp only [fits,true_implies,Sound]
    by_cases room : L.room (expandedLen patch pos) = true
    · rw [if_neg (not_not.mpr room),within_bind_ok rfl,within_note]
      simp only [room,true_implies]
      refine and_congr_right fun _ => ?_
      by_cases inflates : Inflates L patch source bonus i pos
      · rw [if_neg (not_not.mpr inflates),within_bind,applyPatch_within]
        simp only [inflates,true_implies]
        refine and_iff_left fun written _ => ?_
        split
        · exact sinkTo_within sunk _
        · exact within_stop _ _
      · simp [inflates]
    · rw [if_pos room]
      exact iff_of_true (within_stop _ _) fun roomy => absurd roomy room
  · rw [if_pos (by omega)]
    simp [Fits,long]
include low in
theorem applyChunk_within (size : patch.size < 2 ^ 63) (i : Nat) :
    Within (Inside patch source) (applyChunk L taken patch source bonus i sunk pos) ↔
      ∀ type, Complete patch pos type → Sound L taken patch source bonus i pos type := by
  unfold applyChunk Complete
  by_cases short : pos + 4 > patch.size
  · rw [if_pos short]
    refine iff_of_true (within_stop _ _) fun type complete => ?_
    cases type <;> simp only [Fits] at complete <;> omega
  rw [if_neg short,readChunk,within_note_bind (inside_patch low (by omega))]
  cases kind : kindAt patch pos with
  | none => simp [chunkOf]
  | some type =>
    have one : (∀ other, some type = some other ∧ Fits patch pos other →
          Sound L taken patch source bonus i pos other) ↔
        (Fits patch pos type → Sound L taken patch source bonus i pos type) := by
      constructor
      · exact fun all fits => all type ⟨rfl,fits⟩
      · rintro sound other ⟨same,fits⟩
        cases same
        exact sound fits
    rw [one]
    cases type with
    | normal => exact normalChunk_within low sunk
    | raw => exact rawChunk_within low sunk size
    | deflate => exact deflateChunk_within low sunk i

/-! ## Where the loop goes on -/

variable {sunk} {i : Nat} {behind : Int}

theorem sinkTo_result : (sinkTo sunk pos).result = .ok behind ↔ sunk = .whole ∧ pos = behind := by
  cases sunk <;> simp [sinkTo]
theorem note_result (access : Access) (k : Unit → Steps α) : (note access >>= k).result = (k ()).result := rfl
private theorem normalChunk_goes (goes : (normalChunk L patch sunk pos).result = .ok behind) :
    Fits patch pos .normal ∧ Served L patch source bonus i pos .normal ∧ behind = next patch pos .normal := by
  unfold normalChunk at goes
  split at goes
  · cases goes
  rename_i long
  rw [note_result,bind_returns] at goes
  obtain ⟨done,patched,last⟩ := goes
  split at last
  · cases last
  exact ⟨not_lt.mp long,applyPatch_returns.mp ⟨done,patched⟩,(Except.ok.inj last).symm⟩
private theorem rawChunk_goes (goes : (rawChunk patch sunk pos).result = .ok behind) :
    Fits patch pos .raw ∧ behind = next patch pos .raw := by
  unfold rawChunk at goes
  split at goes
  · cases goes
  rename_i long
  rw [note_result] at goes
  split at goes
  · cases goes
  rename_i data
  rw [note_result,sinkTo_result] at goes
  exact ⟨⟨not_lt.mp long,not_lt.mp data⟩,goes.2.symm⟩
private theorem deflateChunk_goes (goes : (deflateChunk L taken patch source bonus i sunk pos).result = .ok behind) :
    Fits patch pos .deflate ∧ Served L patch source bonus i pos .deflate ∧ behind = next patch pos .deflate := by
  unfold deflateChunk at goes
  split at goes
  · cases goes
  rename_i long
  rw [note_result] at goes
  split at goes
  · cases goes
  rename_i room
  rw [note_result] at goes
  split at goes
  · cases goes
  rename_i inflates
  rw [bind_returns] at goes
  obtain ⟨done,patched,last⟩ := goes
  split at last
  · rename_i yes
    rw [yes] at patched
    exact ⟨not_lt.mp long,⟨not_not.mp room,not_not.mp inflates,applyPatch_true.mp patched⟩,
      (sinkTo_result.mp last).2.symm⟩
  · cases last
theorem readChunk_goes {kind : Option ChunkType}
    (goes : (readChunk L taken patch source bonus i sunk pos kind).result = .ok behind) :
    ∃ type, kind = some type ∧ Fits patch pos type ∧ Served L patch source bonus i pos type ∧
      behind = next patch pos type := by
  match kind, goes with
  | some .normal, goes => exact ⟨.normal,rfl,normalChunk_goes goes⟩
  | some .raw, goes =>
    obtain ⟨fits,last⟩ := rawChunk_goes goes
    exact ⟨.raw,rfl,fits,trivial,last⟩
  | some .deflate, goes => exact ⟨.deflate,rfl,deflateChunk_goes goes⟩
theorem applyChunk_goes (goes : (applyChunk L taken patch source bonus i sunk pos).result = .ok behind) :
    ∃ type, Complete patch pos type ∧ Served L patch source bonus i pos type ∧ behind = next patch pos type := by
  unfold applyChunk at goes
  split at goes
  · cases goes
  obtain ⟨type,kind,fits,served,last⟩ := readChunk_goes goes
  exact ⟨type,⟨kind,fits⟩,served,last⟩

variable {type : ChunkType}

theorem readChunk_whole (fits : Fits patch pos type) (served : Served L patch source bonus i pos type) :
    (readChunk L taken patch source bonus i .whole pos (some type)).result = .ok (next patch pos type) := by
  rw [readChunk,note_result]
  cases type with
  | normal =>
    have long : pos + 28 ≤ patch.size := fits
    obtain ⟨done,patched⟩ := applyPatch_returns.mpr served
    rw [chunkOf,normalChunk,if_neg (by omega),note_result,bind_result patched,if_neg (by simp)]
    rfl
  | raw =>
    obtain ⟨long,data⟩ := fits
    rw [chunkOf,rawChunk,if_neg (by omega),note_result,if_neg (by omega),note_result]
    rfl
  | deflate =>
    have long : pos + 64 ≤ patch.size := fits
    obtain ⟨room,inflates,patched⟩ := served
    rw [chunkOf,deflateChunk,if_neg (by omega),note_result,if_neg (not_not.mpr room),note_result,
      if_neg (not_not.mpr inflates),bind_result (applyPatch_true.mpr patched),if_pos rfl]
    rfl
theorem applyChunk_whole (complete : Complete patch pos type)
    (served : Served L patch source bonus i pos type) :
    (applyChunk L taken patch source bonus i .whole pos).result = .ok (next patch pos type) := by
  obtain ⟨kind,fits⟩ := complete
  have long : ¬ pos + 4 > patch.size := by
    cases type <;> simp only [Fits] at fits <;> omega
  rw [applyChunk,if_neg long,kind]
  exact readChunk_whole fits served

/-! ## The loop -/

def Plain : Access → Prop
  | .record _ => False
  | _ => True

theorem positions_plain {trace : List Access} (plain : ∀ access ∈ trace, Plain access) : positions trace = [] := by
  rw [positions,List.filterMap_eq_nil_iff]
  intro access member
  have known := plain access member
  cases access with
  | record => exact known.elim
  | patch => rfl
  | source => rfl
theorem applyPatch_plain (offset : Int) : Within Plain (applyPatch L patch offset) := by
  refine within_bind.mpr ⟨within_bind.mpr ⟨(within_note _ _).mpr trivial,fun _ _ => ?_⟩,fun _ _ => ?_⟩
  · split <;> simp [Plain]
  · rcases (applyMem L patch offset).result with (_ | _) | _ <;> simp [patched]
theorem sinkTo_plain (sunk : Sunk) (pos : Int) : Within Plain (sinkTo sunk pos) := by
  cases sunk <;> simp [sinkTo]
theorem normalChunk_plain : Within Plain (normalChunk L patch sunk pos) := by
  unfold normalChunk
  split
  · exact within_stop _ _
  refine within_bind.mpr ⟨(within_note _ _).mpr trivial,fun _ _ => within_bind.mpr ⟨applyPatch_plain _,fun _ _ => ?_⟩⟩
  split <;> simp
theorem rawChunk_plain : Within Plain (rawChunk patch sunk pos) := by
  unfold rawChunk
  split
  · exact within_stop _ _
  refine within_bind.mpr ⟨(within_note _ _).mpr trivial,fun _ _ => ?_⟩
  split
  · exact within_stop _ _
  · exact within_bind.mpr ⟨(within_note _ _).mpr trivial,fun _ _ => sinkTo_plain _ _⟩
theorem deflateChunk_plain : Within Plain (deflateChunk L taken patch source bonus i sunk pos) := by
  unfold deflateChunk
  split
  · exact within_stop _ _
  refine within_bind.mpr ⟨(within_note _ _).mpr trivial,fun _ _ => ?_⟩
  split
  · exact within_stop _ _
  refine within_bind.mpr ⟨(within_note _ _).mpr trivial,fun _ _ => ?_⟩
  split
  · exact within_stop _ _
  refine within_bind.mpr ⟨applyPatch_plain _,fun _ _ => ?_⟩
  split
  · exact sinkTo_plain _ _
  · exact within_stop _ _
theorem applyChunk_plain : Within Plain (applyChunk L taken patch source bonus i sunk pos) := by
  unfold applyChunk
  split
  · exact within_stop _ _
  generalize kindAt patch pos = kind
  refine within_bind.mpr ⟨(within_note _ _).mpr trivial,fun _ _ => ?_⟩
  match kind with
  | some .normal => exact normalChunk_plain
  | some .raw => exact rawChunk_plain
  | some .deflate => exact deflateChunk_plain
  | none => exact within_stop _ _
theorem chunkSteps_positions (sunk : Nat → Sunk) (left i : Nat) (pos : Int) :
    positions (chunkSteps L taken patch source bonus sunk (left + 1) i pos).trace = pos ::
      match (applyChunk L taken patch source bonus i (sunk i) pos).result with
      | .ok behind => positions (chunkSteps L taken patch source bonus sunk left (i + 1) behind).trace
      | .error _ => [] := by
  have plain : positions (applyChunk L taken patch source bonus i (sunk i) pos).trace = [] :=
    positions_plain applyChunk_plain
  rw [chunkSteps,note_bind]
  cases ended : (applyChunk L taken patch source bonus i (sunk i) pos).result with
  | ok behind =>
    rw [bind_eq_ok ended]
    simp only [positions] at plain ⊢
    simp [plain]
  | error e =>
    rw [bind_eq_error ended]
    simp only [positions] at plain ⊢
    simp [plain]

theorem next_inside (complete : Complete patch pos type)
    (sound : Sound L taken patch source bonus i pos type) : pos < next patch pos type ∧ next patch pos type ≤ patch.size := by
  obtain ⟨_,fits⟩ := complete
  cases type with
  | normal =>
    simp only [Fits,next] at *
    omega
  | raw =>
    simp only [Fits,next,Sound] at *
    omega
  | deflate =>
    simp only [Fits,next] at *
    omega

theorem chunkSteps_safe (size : patch.size < 2 ^ 63) (sunk : Nat → Sunk)
    (sound : ∀ j q, Reached L patch source bonus j q → j < numChunks patch → ∀ type, Complete patch q type →
      Sound L taken patch source bonus j q type)
    {left i : Nat} {pos : Int} (count : i + left = numChunks patch) (reached : Reached L patch source bonus i pos)
    (low : 0 ≤ pos) (high : pos ≤ patch.size) :
    Within (Inside patch source) (chunkSteps L taken patch source bonus sunk left i pos) ∧
      (positions (chunkSteps L taken patch source bonus sunk left i pos).trace).Pairwise (· < ·) ∧
      ∀ q ∈ positions (chunkSteps L taken patch source bonus sunk left i pos).trace, pos ≤ q ∧ q ≤ patch.size := by
  induction left generalizing i pos with
  | zero => simp [chunkSteps,note,positions,Within,Inside,high]
  | succ left ih =>
    have here := sound i pos reached (by omega)
    have reads := (applyChunk_within (L := L) low (sunk i) size i).mpr here
    rw [chunkSteps_positions,chunkSteps,within_record]
    cases ended : (applyChunk L taken patch source bonus i (sunk i) pos).result with
    | error e =>
      rw [bind_eq_error ended]
      exact ⟨reads,by simp,by simp [high]⟩
    | ok behind =>
      rw [within_bind_ok ended]
      obtain ⟨type,complete,served,rfl⟩ := applyChunk_goes ended
      have further := next_inside complete (here type complete)
      obtain ⟨inside,rising,between⟩ := ih (by omega) (.next reached (by omega) complete served) (by omega) further.2
      refine ⟨⟨reads,inside⟩,List.pairwise_cons.mpr ⟨fun q member => ?_,rising⟩,List.forall_mem_cons.mpr
        ⟨⟨le_rfl,high⟩,fun q member => ?_⟩⟩
      · exact further.1.trans_le (between q member).1
      · exact ⟨further.1.le.trans (between q member).1,(between q member).2⟩
/-- With a sink that takes everything, the run comes to every record that is reached. -/
theorem chunkSteps_reaches (size : patch.size < 2 ^ 63)
    (inside : Within (Inside patch source) (chunkSteps L taken patch source bonus (fun _ => .whole) (numChunks patch) 0 12))
    {i : Nat} {pos : Int} (reached : Reached L patch source bonus i pos) : 0 ≤ pos ∧ ∃ left, i + left = numChunks patch ∧
      Within (Inside patch source) (chunkSteps L taken patch source bonus (fun _ => .whole) left i pos) := by
  induction reached with
  | first => exact ⟨by decide,numChunks patch,by omega,inside⟩
  | @next i pos type before more complete served ih =>
    obtain ⟨low,left,count,within⟩ := ih
    obtain ⟨left,rfl⟩ : ∃ less, left = less + 1 := ⟨left - 1,by omega⟩
    rw [chunkSteps,within_record,within_bind_ok (applyChunk_whole complete served)] at within
    have sound := (applyChunk_within low .whole size i).mp within.1 type complete
    have further := next_inside complete sound
    exact ⟨by omega,left,by omega,within.2⟩

variable (L taken patch source bonus) in
/-- A patch that the code takes for an image patch, all of whose records that are reached are sound. -/
def AllSound : Prop := patch.bytes 0 8 = imgdiffMagic → ∀ i pos, Reached L patch source bonus i pos →
  i < numChunks patch → ∀ type, Complete patch pos type → Sound L taken patch source bonus i pos type

theorem safe_header (long : 12 ≤ patch.size) (run : Steps Unit) :
    Safe patch source (note (.patch 0 8) >>= fun _ => note (.patch 8 4) >>= fun _ => run) ↔ Safe patch source run := by
  have start : Inside patch source (.patch 0 8) := inside_patch (by decide) (by omega)
  have count : Inside patch source (.patch 8 4) := inside_patch (by decide) (by omega)
  have reads : Within (Inside patch source) (note (.patch 0 8) >>= fun _ => note (.patch 8 4) >>= fun _ => run) ↔
      Within (Inside patch source) run := by
    rw [within_note_bind start,within_note_bind count]
  have same : positions (note (.patch 0 8) >>= fun _ => note (.patch 8 4) >>= fun _ => run).trace =
      positions run.trace := by
    simp [note_bind,positions]
  constructor
  · rintro ⟨inside,rising,within⟩
    exact ⟨reads.mp inside,rising,within⟩
  · rintro ⟨inside,rising,within⟩
    refine ⟨reads.mpr inside,?_,?_⟩
    all_goals rwa [same]
theorem applyImage_magic (magic : patch.bytes 0 8 = imgdiffMagic) (sunk : Nat → Sunk) :
    applyImage L taken patch source bonus sunk = note (.patch 0 8) >>= fun _ => note (.patch 8 4) >>= fun _ =>
      chunkSteps L taken patch source bonus sunk (numChunks patch) 0 12 := by
  rw [applyImage,if_neg (not_not.mpr magic)]

/-- Whatever the sink says, only bytes of the patch and of the source are read and the header position
    goes up inside of the patch, if and only if all records that are reached are sound. -/
theorem image_safe_iff (long : 12 ≤ patch.size) (size : patch.size < 2 ^ 63) :
    (∀ sunk, Safe patch source (applyImage L taken patch source bonus sunk)) ↔ AllSound L taken patch source bonus := by
  unfold AllSound
  by_cases magic : patch.bytes 0 8 = imgdiffMagic
  · simp only [magic, true_implies, applyImage_magic magic, safe_header long]
    constructor
    · intro safe i pos reached more
      obtain ⟨low, left, total, within⟩ := chunkSteps_reaches size (safe fun _ => .whole).reads reached
      obtain ⟨left, rfl⟩ : ∃ less, left = less + 1 := ⟨left - 1, by omega⟩
      rw [chunkSteps, within_record, within_bind] at within
      exact (applyChunk_within low .whole size i).mp within.1
    · intro sound sunk
      obtain ⟨inside, rising, between⟩ := chunkSteps_safe size sunk sound (Nat.zero_add _) .first (by decide) (by omega)
      exact ⟨inside, rising, fun pos member => (between pos member).2⟩
  · refine iff_of_true (fun sunk => ?_) fun right => absurd right magic
    have start : Inside patch source (.patch 0 8) := inside_patch (by decide) (by omega)
    rw [applyImage, if_pos magic]
    exact ⟨(within_note_bind start).mpr (within_stop _ _), by simp [note_bind, positions], by simp [note_bind, positions]⟩

end Chunks

/-! ## The records as `Imgpatch` reads them -/

def typeOf : Chunk → ChunkType
  | .normal .. => .normal
  | .raw .. => .raw
  | .deflate .. => .deflate

theorem bytes_of_slice {bytes part : Bytes} {off : Int} {n : Nat} (read : slice bytes off n = some part) :
    (blobOf bytes).bytes off n = part := by
  obtain ⟨low,high,rfl,length⟩ := slice_some read
  have cast : (List.range n >>= fun k => [(k : Int)]) = (List.range n).map fun k : Nat => (k : Int) :=
    List.flatMap_pure_eq_map _ _
  refine List.ext_getElem? fun k => ?_
  simp only [Blob.bytes,blobOf,List.pure_def,cast,List.map_map,List.getElem?_map,List.getElem?_take,List.getElem?_drop]
  by_cases small : k < n
  · rw [if_pos small,List.getElem?_range small,List.getElem?_eq_getElem (by omega)]
    have inside : off.toNat + k < bytes.length := by omega
    simp [show (off + (k : Int)).toNat = off.toNat + k by omega,List.getElem?_eq_getElem inside]
  · rw [if_neg small,List.getElem?_eq_none (by simpa using small)]
    rfl

private theorem bind_ok {r : Ret α} {k : α → Ret β} {b : β} (done : r >>= k = .ok b) : ∃ a, r = .ok a ∧ k a = .ok b := by
  cases r with
  | ok a => exact ⟨a,rfl,done⟩
  | err _ => cases done
  | stuck => cases done
private theorem need_ok {o : Option α} {k : α → Ret β} {b : β} (done : Ret.need o >>= k = .ok b) :
    ∃ a, o = some a ∧ k a = .ok b := by
  cases o with
  | some a => exact ⟨a,rfl,done⟩
  | none => cases done

/-- A record that `Imgpatch.readChunk` accepts is complete here, with the same type and the same next position. -/
theorem readChunk_complete {L : Libs} {old patch : Bytes} {bonus : Option Bytes} {i : Nat} {pos : Int} {chunk : Chunk}
    (read : Imgpatch.readChunk L old patch bonus i pos = .ok chunk) :
    Complete (blobOf patch) pos (typeOf chunk) ∧ next (blobOf patch) pos (typeOf chunk) = PatchStreams.chunkNext chunk := by
  unfold Imgpatch.readChunk at read
  split at read
  · cases read
  obtain ⟨type,word,read⟩ := need_ok read
  have kind : kindAt (blobOf patch) pos = if read4 type = chunkNormal then some .normal
      else if read4 type = chunkRaw then some .raw else if read4 type = chunkDeflate then some .deflate else none := by
    rw [kindAt,bytes_of_slice word]
  have size : ((blobOf patch).size : Int) = patch.length := rfl
  dsimp only at read
  generalize (if i = 1 then bonus.getD [] else []) = used at read
  split_ifs at read with normal short raw short deflate short
  · obtain ⟨fields,-,read⟩ := need_ok read
    cases read
    refine ⟨⟨by rw [kind,if_pos normal]; rfl,?_⟩,?_⟩
    · simp only [typeOf,Fits]
      omega
    · simp only [typeOf,next,PatchStreams.chunkNext]
      omega
  · obtain ⟨count,field,read⟩ := need_ok read
    have length : rawLen (blobOf patch) pos = read4 count := by rw [rawLen,bytes_of_slice field]
    split_ifs at read with beyond negative
    obtain ⟨data,-,read⟩ := need_ok read
    cases read
    refine ⟨⟨by rw [kind,if_neg normal,if_pos raw]; rfl,?_⟩,?_⟩
    · simp only [typeOf,Fits,length]
      omega
    · simp only [typeOf,next,PatchStreams.chunkNext,length]
      omega
  · obtain ⟨fields,-,read⟩ := need_ok read
    obtain ⟨parts,-,read⟩ := bind_ok read
    cases read
    refine ⟨⟨by rw [kind,if_neg normal,if_neg raw,if_pos deflate]; rfl,?_⟩,?_⟩
    · simp only [typeOf,Fits]
      omega
    · simp only [typeOf,next,PatchStreams.chunkNext]
      omega

/-- Complete records that stand one behind another from a position on. -/
inductive Records (patch : Blob) : Nat → Int → Prop
  | nil {pos : Int} : Records patch 0 pos
  | cons {left : Nat} {pos : Int} {type : ChunkType} (complete : Complete patch pos type)
      (behind : Records patch left (next patch pos type)) : Records patch (left + 1) pos

/-- A loop of `Imgpatch` that returns 0 has gone through such records. -/
theorem chunkLoop_records {L : Libs} {old patch : Bytes} {bonus : Option Bytes} {sink : Sink σ A} {left i : Nat} {pos : Int}
    {ctx ctx' : ShaCtx} {codes codes' : List ChunkCode} {s : σ} {as : List A}
    (returned : (chunkLoop L old patch bonus sink left i pos ctx codes s as).value = some (0,ctx',codes')) :
    Records (blobOf patch) left pos := by
  induction left generalizing i pos ctx codes s as with
  | zero => exact .nil
  | succ left ih =>
    simp only [chunkLoop] at returned
    obtain ⟨done,applied,rest⟩ := Program.Prog.bind_returns returned
    rw [rest] at returned
    cases done with
    | fail _ => simp [Program.Prog.pure_run] at returned
    | next behind mid code =>
      obtain ⟨chunk,_,_,_,readOk,_,rfl,_⟩ := PatchStreams.applyChunk_next rfl applied
      obtain ⟨complete,same⟩ := readChunk_complete readOk
      exact .cons complete (same ▸ ih returned)

/-! A patch with a chunk of each type, and one with a normal chunk whose patch is said to be far outside. -/

/-- The normal and the deflate chunk use the same bsdiff patch, at 114. -/
def mixedPatch : Blob := blobOf (imgdiffMagic ++ write4 3 ++ write4 chunkRaw ++ write4 2 ++ [5, 6] ++
  write4 chunkNormal ++ write8 0 ++ write8 3 ++ write8 114 ++
  write4 chunkDeflate ++ write8 0 ++ write8 3 ++ write8 114 ++ write8 1 ++ write8 1 ++ write4 6 ++ write4 8 ++ write4 (-15) ++
    write4 8 ++ write4 0 ++ PatchHash.freshPatch (ascii "T"))
def farPatch : Blob := blobOf (imgdiffMagic ++ write4 1 ++ write4 chunkNormal ++ write8 0 ++ write8 0 ++ write8 1000)
/-- The deflate stream of one byte. -/
def mixedSource : Blob := blobOf [0x63, 0x07, 0x00]
def emptySource : Blob := blobOf []
def storedTaken (input : Bytes) (_room : Nat) : Nat := (StoredLibs.storedLibs.inflate input).used

theorem mixedPatch_kinds : kindAt mixedPatch 12 = some .raw ∧ kindAt mixedPatch 22 = some .normal ∧
    kindAt mixedPatch 50 = some .deflate ∧ rawLen mixedPatch 12 = 2 := by decide +kernel
theorem mixedPatch_reached {i : Nat} {pos : Int}
    (reached : Reached StoredLibs.storedLibs mixedPatch mixedSource none i pos) :
    (i = 0 ∧ pos = 12) ∨ (i = 1 ∧ pos = 22) ∨ (i = 2 ∧ pos = 50) ∨ 3 ≤ i := by
  obtain ⟨raw,normal,-,length⟩ := mixedPatch_kinds
  induction reached with
  | first => exact .inl ⟨rfl,rfl⟩
  | next before more complete served ih =>
    have kind := complete.1
    rcases ih with ⟨rfl,rfl⟩ | ⟨rfl,rfl⟩ | later
    · rw [raw] at kind
      cases kind
      exact .inr (.inl ⟨rfl,by simp [next,length]⟩)
    · rw [normal] at kind
      cases kind
      exact .inr (.inr (.inl ⟨rfl,rfl⟩))
    · omega
theorem mixedPatch_safe :
    (applyImage StoredLibs.storedLibs storedTaken mixedPatch mixedSource none fun _ => .whole).result = .ok () ∧
    Safe mixedPatch mixedSource
      (applyImage StoredLibs.storedLibs storedTaken mixedPatch mixedSource none fun _ => .whole) := by
  refine ⟨by decide +kernel, (image_safe_iff (by decide +kernel) (by decide +kernel)).mpr
    (fun _ i pos reached more type complete => ?_) _⟩
  obtain ⟨raw, normal, deflate, length⟩ := mixedPatch_kinds
  have few : numChunks mixedPatch = 3 := by decide +kernel
  have kind := complete.1
  rcases mixedPatch_reached reached with ⟨rfl, rfl⟩ | ⟨rfl, rfl⟩ | ⟨rfl, rfl⟩ | later
  · rw [raw] at kind
    cases kind
    show 0 ≤ rawLen mixedPatch 12
    omega
  · rw [normal] at kind
    cases kind
    unfold Sound HeaderInside
    decide +kernel
  · rw [deflate] at kind
    cases kind
    refine fun _ => ⟨(bytesInside_iff (by decide +kernel)).mpr (by decide +kernel), fun _ => ?_⟩
    unfold HeaderInside
    decide +kernel
  · omega
theorem farPatch_unsafe :
    .patch 1000 8 ∈ (applyImage StoredLibs.storedLibs storedTaken farPatch emptySource none fun _ => .whole).trace ∧
    ¬ Safe farPatch emptySource
      (applyImage StoredLibs.storedLibs storedTaken farPatch emptySource none fun _ => .whole) := by
  have far : .patch 1000 8 ∈
      (applyImage StoredLibs.storedLibs storedTaken farPatch emptySource none fun _ => .whole).trace := by decide +kernel
  refine ⟨far, fun safe => ?_⟩
  have inside := (safe.reads _ far 0 (by decide)).2
  exact absurd inside (by decide)

end Recovery.ImgpatchBounds
