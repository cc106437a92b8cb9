import Mathlib.Data.List.Sort
import Recovery.BspatchSteps
import Recovery.ImageChunks

/-!
`ReadZip` of `imgdiff.c`: the deflated entries that the central directory lists, in order of their
offsets, become deflate chunks, and what is between them normal ones.
-/
namespace Recovery.ZipChunks
open Memory Numbers ImageChunks List Option
open BspatchSteps (Blob blobOf)

/-! ## The directory -/

/-- `ZipFileEntry`; the numbers are ints. -/
structure Entry where
  dataOffset : Int
  deflateLen : Int
  uncompLen : Int
  filename : Bytes
  deriving DecidableEq, Repr

section Directory
variable (img : Blob)

def read2 (p : Bytes) : Nat := byteAt p 1 <<< 8 ||| byteAt p 0
def two (place : Int) : Nat := read2 (img.bytes place 2)
def four (place : Int) : Int := read4 (img.bytes place 4)

/-- The search for the end of the central directory; `i` when it stops. -/
def findEnd : Nat → Int → Int
  | 0, i => i
  | fuel + 1, i =>
    if 0 ≤ i ∧ i > img.size - 65600 then
      if img.bytes i 4 = [0x50, 0x4b, 0x05, 0x06] then i else findEnd fuel (i - 1)
    else i

/-- The loop over the records of the central directory; none for a bad record. -/
def readRecords : Nat → Int → Option (List Entry)
  | 0, _ => some []
  | left + 1, cd =>
    if img.bytes cd 4 ≠ [0x50, 0x4b, 0x01, 0x02] then none
    else
      let nlen := two img (cd + 28)
      let filename := img.bytes (cd + 46) nlen
      let hoffset := four img (cd + 42)
      let next := cd + 46 + nlen + two img (cd + 30) + two img (cd + 32)
      if two img (cd + 10) ≠ 8 then readRecords left next
      else if img.bytes hoffset 4 ≠ [0x50, 0x4b, 0x03, 0x04] then none
      else if two img (hoffset + 26) ≠ nlen ∨ img.bytes (hoffset + 30) nlen ≠ filename then none
      else do
        let rest ← readRecords left next
        some (⟨wrap 32 (hoffset + 30 + nlen + two img (hoffset + 28)), four img (cd + 20), four img (cd + 24),
          filename⟩ :: rest)

/-- The deflated entries of a zip file, in the order of the directory. A file without an end record is
    read from wherever the search stopped. -/
def readEntries : Option (List Entry) :=
  let i := findEnd img 65600 (wrap 32 (img.size - 20))
  if img.bytes (i + 4) 4 ≠ [0, 0, 0, 0] then none
  else readRecords img (two img (i + 8)) (four img (i + 16))

end Directory

/-! ## The chunks -/

structure ZipChunk extends Chunk where
  filename : Option Bytes
  deriving DecidableEq, Repr

section Chunks
variable (L : Libs) (full : Bool) (img : Blob) {x : Int}

/-- One call of `inflate` gives all of the entry's data. -/
def Inflates (e : Entry) : Prop :=
  let inflated := L.inflate (img.bytes e.dataOffset (unsigned 32 e.deflateLen))
  inflated.fin = .ended ∧ (inflated.out.length < unsigned 32 e.uncompLen ∨
    inflated.out.length = unsigned 32 e.uncompLen ∧ full)

instance (e : Entry) : Decidable (Inflates L full img e) := inferInstanceAs (Decidable (_ ∧ _))

/-- A chunk with the fields as they are stored, of type `size_t`. -/
def normalChunk (pos len : Int) : ZipChunk := ⟨⟨false, unsigned 64 pos, unsigned 64 len, unsigned 64 len⟩, none⟩
def deflateChunk (pos : Int) (e : Entry) : ZipChunk :=
  ⟨⟨true, unsigned 64 pos, unsigned 64 e.deflateLen, unsigned 64 e.uncompLen⟩, some e.filename⟩

/-- The main loop: the chunks, or none inside for NULL. `pos` is an int. -/
def zipLoop : Nat → Int → List Entry → List ZipChunk → Option (Option (List ZipChunk))
  | 0, _, _, _ => none
  | fuel + 1, pos, entries, chunks =>
    if pos < img.size then
      match entries with
      | e :: rest =>
        if pos = e.dataOffset then
          if ¬ Inflates L full img e then some none
          else zipLoop fuel (wrap 32 (pos + e.deflateLen)) rest (chunks ++ [deflateChunk pos e])
        else
          let len := wrap 32 (e.dataOffset - pos)
          zipLoop fuel (wrap 32 (pos + len)) (e :: rest) (chunks ++ [normalChunk pos len])
      | [] =>
        let len := img.size - pos
        zipLoop fuel (wrap 32 (pos + len)) [] (chunks ++ [normalChunk pos len])
    else some (some chunks)

def pseudoChunk : ZipChunk := normalChunk 0 img.size
/-- `ReadZip`, with what `qsort` makes of the entries. -/
def readZip (qsort : List Entry → List Entry) (includePseudoChunk : Bool) (fuel : Nat) : Option (Option (List ZipChunk)) :=
  match readEntries img with
  | none => some none
  | some entries => zipLoop L full img fuel 0 (qsort entries) (if includePseudoChunk then [pseudoChunk img] else [])

/-- The chunks other than the pseudo-chunk cover the file. -/
def Covers (size : Nat) (chunks : List ZipChunk) : Prop := Tiles 0 size (chunks.map ZipChunk.toChunk)

/-- The data of each entry begins behind that of the one before it and lies in the file, as far as
    the file is not used up. -/
def Laid (size : Nat) : Int → List Entry → Prop
  | _, [] => True
  | pos, e :: rest => pos = size ∨ (pos ≤ e.dataOffset ∧ e.dataOffset ≤ size ∧ (e.dataOffset = size ∨
      (0 ≤ e.deflateLen ∧ e.dataOffset + e.deflateLen ≤ size ∧ Laid size (e.dataOffset + e.deflateLen) rest)))

/-! ## One round -/

def IsInt (x : Int) : Prop := -(2 ^ 31) ≤ x ∧ x < 2 ^ 31
theorem isInt_wrap (x : Int) : IsInt (wrap 32 x) := by
  have low := Int.le_bmod (x := x) (m := 2 ^ 32) (by decide)
  have high := Int.bmod_lt (x := x) (m := 2 ^ 32) (by decide)
  exact ⟨low,high⟩
private theorem isInt_four (img : Blob) (place : Int) : IsInt (four img place) := by
  unfold four read4
  exact isInt_wrap _
private theorem wrap_below (low : -(2 ^ 32) < x) (high : x < -(2 ^ 31)) : wrap 32 x = x + 2 ^ 32 := by
  unfold wrap Int.bmod
  simp only
  split <;> omega
theorem wrap_int (fits : IsInt x) : wrap 32 x = x := wrap_small fits.1 fits.2

structure IntEntry (e : Entry) : Prop where
  offset : IsInt e.dataOffset
  length : IsInt e.deflateLen

variable {entries : List Entry}

private theorem readRecords_ints {img : Blob} {left : Nat} {cd : Int}
    (read : readRecords img left cd = some entries) : ∀ e ∈ entries, IntEntry e := by
  induction left generalizing cd entries with
  | zero =>
    obtain rfl := some.inj read
    simp
  | succ left ih =>
    simp only [readRecords] at read
    split at read
    · cases read
    split at read
    · exact ih read
    split at read
    · cases read
    split at read
    · cases read
    obtain ⟨rest,found,last⟩ := bind_eq_some_iff.mp read
    obtain rfl := some.inj last
    refine forall_mem_cons.mpr ⟨⟨?_,?_⟩,ih found⟩
    · simp only
      apply isInt_wrap
    · simp only
      apply isInt_four
private theorem readEntries_ints {img : Blob} (read : readEntries img = some entries) :
    ∀ e ∈ entries, IntEntry e := by
  simp only [readEntries] at read
  split at read
  · cases read
  · exact readRecords_ints read

variable {L full img}

variable {chunks : List ZipChunk} {fuel : Nat} {pos : Int} {later : List ZipChunk}

private theorem zipLoop_deflate {e : Entry} {rest : List Entry}
    (more : e.dataOffset < img.size) : zipLoop L full img (fuel + 1) e.dataOffset (e :: rest) chunks =
      if ¬ Inflates L full img e then some none
      else zipLoop L full img fuel (wrap 32 (e.dataOffset + e.deflateLen)) rest (chunks ++ [deflateChunk e.dataOffset e]) := by
  simp only [zipLoop,if_pos more,if_true]
private theorem zipLoop_normal {e : Entry} {rest : List Entry}
    (more : pos < img.size) (other : pos ≠ e.dataOffset) (fits : IntEntry e) :
    zipLoop L full img (fuel + 1) pos (e :: rest) chunks =
      zipLoop L full img fuel e.dataOffset (e :: rest) (chunks ++ [normalChunk pos (wrap 32 (e.dataOffset - pos))]) := by
  have place : wrap 32 (pos + wrap 32 (e.dataOffset - pos)) = e.dataOffset := by
    have inner : wrap 32 (pos + wrap 32 (e.dataOffset - pos)) = wrap 32 e.dataOffset := by
      unfold wrap
      rw [Int.add_bmod_bmod,add_sub_cancel]
    rw [inner,wrap_int fits.offset]
  simp only [zipLoop,if_pos more,if_neg other,place]
private theorem zipLoop_last (more : pos < img.size) :
    zipLoop L full img (fuel + 1) pos [] chunks =
      zipLoop L full img fuel (wrap 32 img.size) [] (chunks ++ [normalChunk pos (img.size - pos)]) := by
  simp only [zipLoop,if_pos more,add_sub_cancel]
private theorem zipLoop_end (last : ¬ pos < img.size) :
    zipLoop L full img (fuel + 1) pos entries chunks = some (some chunks) := by
  rw [zipLoop.eq_def]
  simp only [if_neg last]

/-- The loop as a relation: its rounds, with the chunks that are to come. -/
inductive Runs (L : Libs) (full : Bool) (img : Blob) : Int → List Entry → List ZipChunk → Prop
  | stop {pos : Int} {entries : List Entry} (last : ¬ pos < img.size) : Runs L full img pos entries []
  | deflate {e : Entry} {rest : List Entry} {later : List ZipChunk} (more : e.dataOffset < img.size) (fits : IntEntry e)
      (inflates : Inflates L full img e)
      (runs : Runs L full img (wrap 32 (e.dataOffset + e.deflateLen)) rest later) :
      Runs L full img e.dataOffset (e :: rest) (deflateChunk e.dataOffset e :: later)
  | normal {pos : Int} {e : Entry} {rest : List Entry} {later : List ZipChunk} (more : pos < img.size)
      (other : pos ≠ e.dataOffset) (fits : IntEntry e) (runs : Runs L full img e.dataOffset (e :: rest) later) :
      Runs L full img pos (e :: rest) (normalChunk pos (wrap 32 (e.dataOffset - pos)) :: later)
  | final {pos : Int} {later : List ZipChunk} (more : pos < img.size) (runs : Runs L full img (wrap 32 img.size) [] later) :
      Runs L full img pos [] (normalChunk pos (img.size - pos) :: later)

theorem zipLoop_runs {result : List ZipChunk}
    (fits : ∀ e ∈ entries, IntEntry e) (run : zipLoop L full img fuel pos entries chunks = some (some result)) :
    ∃ later, result = chunks ++ later ∧ Runs L full img pos entries later := by
  induction fuel generalizing pos entries chunks with
  | zero => cases run
  | succ fuel ih =>
    by_cases more : pos < img.size
    · cases entries with
      | nil =>
        rw [zipLoop_last more] at run
        obtain ⟨later,rfl,runs⟩ := ih fits run
        exact ⟨_,append_assoc _ _ _,.final more runs⟩
      | cons e rest =>
        have here := fits e mem_cons_self
        by_cases same : pos = e.dataOffset
        · subst same
          rw [zipLoop_deflate more] at run
          split at run
          · cases run
          · rename_i inflates
            obtain ⟨later,rfl,runs⟩ := ih (fun e member => fits e (mem_cons_of_mem _ member)) run
            exact ⟨_,append_assoc _ _ _,.deflate more here (not_not.mp inflates) runs⟩
        · rw [zipLoop_normal more same here] at run
          obtain ⟨later,rfl,runs⟩ := ih fits run
          exact ⟨_,append_assoc _ _ _,.normal more same here runs⟩
    · rw [zipLoop_end more] at run
      obtain rfl := some.inj (some.inj run)
      exact ⟨[],(append_nil _).symm,.stop more⟩

/-! ## Coverage and number -/

theorem unsigned_nonneg (low : 0 ≤ x) (high : x < 2 ^ 64) : (unsigned 64 x : Int) = x := by
  unfold unsigned
  omega
theorem unsigned_negative (fits : IsInt x) (negative : x < 0) : (2 ^ 63 : Int) ≤ unsigned 64 x := by
  obtain ⟨low,high⟩ := fits
  unfold unsigned
  omega
theorem tiles_first {size : Int} {c : ZipChunk}
    (tiles : Tiles pos size ((c :: later).map ZipChunk.toChunk)) : c.extent ≤ size - pos ∧
      Tiles (pos + c.extent) size (later.map ZipChunk.toChunk) := by
  obtain ⟨_,_,rest⟩ := tiles
  have reach := tiles_le rest
  exact ⟨by omega,rest⟩

theorem size_of_runs (runs : Runs L full img pos entries later)
    (fits : IsInt pos) : (img.size : Int) < 2 ^ 31 := by
  induction runs with
  | stop last =>
    have := fits.2
    omega
  | deflate more here inflates runs ih => exact ih (isInt_wrap _)
  | normal more other here runs ih => exact ih here.offset
  | final more runs ih => exact ih (isInt_wrap _)
/-- The chunks that are to come tile the rest of the file if and only if the entries are laid out one
    behind the other. -/
theorem runs_tile_iff
    (runs : Runs L full img pos entries later) (size : (img.size : Int) < 2 ^ 31) (low : 0 ≤ pos) (high : pos ≤ img.size) :
    Tiles pos img.size (later.map ZipChunk.toChunk) ↔ Laid img.size pos entries := by
  induction runs with
  | @stop pos entries last =>
    obtain rfl : pos = img.size := by omega
    refine iff_of_true rfl ?_
    cases entries with
    | nil => trivial
    | cons e rest => exact .inl rfl
  | @deflate e rest later more here inflates runs ih =>
    have start : (unsigned 64 e.dataOffset : Int) = e.dataOffset := unsigned_nonneg low (by omega)
    constructor
    · intro tiles
      obtain ⟨extent,rest'⟩ := tiles_first tiles
      simp only [deflateChunk] at extent rest'
      have positive : 0 ≤ e.deflateLen := by
        by_contra negative
        have huge := unsigned_negative here.length (by omega)
        omega
      have same := unsigned_nonneg positive (by have := here.length.2; omega)
      rw [same] at extent rest'
      have place : wrap 32 (e.dataOffset + e.deflateLen) = e.dataOffset + e.deflateLen :=
        wrap_int ⟨by omega,by omega⟩
      rw [place] at ih
      exact .inr ⟨le_rfl,high,.inr ⟨positive,by omega,(ih (by omega) (by omega)).mp rest'⟩⟩
    · intro laid
      rcases laid with whole | ⟨_,_,whole | ⟨positive,inside,rest'⟩⟩
      · omega
      · omega
      have same := unsigned_nonneg positive (by have := here.length.2; omega)
      have place : wrap 32 (e.dataOffset + e.deflateLen) = e.dataOffset + e.deflateLen :=
        wrap_int ⟨by omega,by omega⟩
      rw [place] at ih
      refine ⟨start,by simp only [deflateChunk]; omega,?_⟩
      simp only [deflateChunk,same]
      exact (ih (by omega) (by omega)).mpr rest'
  | @normal pos e rest later more other here runs ih =>
    have start : (unsigned 64 pos : Int) = pos := unsigned_nonneg low (by omega)
    have offset := here.offset
    have gap (forward : pos ≤ e.dataOffset) : (unsigned 64 (wrap 32 (e.dataOffset - pos)) : Int) = e.dataOffset - pos := by
      rw [wrap_int ⟨by omega,by have := offset.2; omega⟩]
      exact unsigned_nonneg (by omega) (by have := offset.2; omega)
    constructor
    · intro tiles
      obtain ⟨extent,rest'⟩ := tiles_first tiles
      simp only [normalChunk] at extent rest'
      -- a gap backwards is a huge length
      have forward : pos ≤ e.dataOffset := by
        by_contra backward
        have bottom := offset.1
        rcases lt_or_ge (e.dataOffset - pos) (-(2 ^ 31)) with far | near
        · rw [wrap_below (by omega) far,unsigned_nonneg (by omega) (by omega)] at extent
          omega
        · have fits : IsInt (e.dataOffset - pos) := ⟨near,by omega⟩
          rw [wrap_int fits] at extent
          have huge := unsigned_negative fits (by omega)
          omega
      rw [gap forward] at extent rest'
      rw [add_sub_cancel] at rest'
      have laid := (ih (by omega) (by omega)).mp rest'
      refine .inr ⟨forward,by omega,?_⟩
      rcases laid with whole | ⟨_,_,behind⟩
      · exact .inl whole
      · exact behind
    · intro laid
      rcases laid with whole | ⟨forward,inside,behind⟩
      · omega
      · refine ⟨start,by simp only [normalChunk]; omega,?_⟩
        simp only [normalChunk,gap forward,add_sub_cancel]
        exact (ih (by omega) inside).mpr (.inr ⟨le_rfl,inside,behind⟩)
  | @final pos later more runs ih =>
    have start : (unsigned 64 pos : Int) = pos := unsigned_nonneg low (by omega)
    have length : (unsigned 64 (img.size - pos : Int) : Int) = img.size - pos := unsigned_nonneg (by omega) (by omega)
    have place : wrap 32 (img.size : Int) = img.size := wrap_int ⟨by omega,size⟩
    rw [place] at ih
    refine iff_of_true ⟨start,by simp only [normalChunk]; omega,?_⟩ trivial
    simp only [normalChunk,length,add_sub_cancel]
    exact (ih (by omega) le_rfl).mpr trivial

theorem runs_end (runs : Runs L full img pos entries later)
    (last : ¬ pos < img.size) : later = [] := by
  cases runs with
  | stop => rfl
  | deflate more => exact absurd more last
  | normal more => exact absurd more last
  | final more => exact absurd more last

theorem runs_length (runs : Runs L full img pos entries later)
    (size : (img.size : Int) < 2 ^ 31) : later.length ≤ 2 * entries.length + 1 ∧
      ∀ e rest, entries = e :: rest → pos = e.dataOffset → later.length ≤ 2 * entries.length := by
  induction runs with
  | stop last => simp
  | deflate more here inflates runs ih =>
    simp only [length_cons]
    exact ⟨by omega,fun _ _ _ _ => by omega⟩
  | @normal pos e rest later more other here runs ih =>
    have after := ih.2 e rest rfl rfl
    simp only [length_cons] at *
    refine ⟨by omega,fun e' rest' equal place => absurd place ?_⟩
    obtain ⟨rfl,_⟩ := cons.inj equal
    exact other
  | final more runs ih =>
    rw [wrap_int ⟨by omega,size⟩] at runs
    rw [runs_end runs (lt_irrefl _)]
    simp

variable {qsort : List Entry → List Entry}

/-- The chunks of a zip file that `ReadZip` accepts fit their array. They cover the file if and only
    if the data of the entries, in the order of their offsets, lie in the file one behind the other. -/
theorem zip_covered_iff (perm : ∀ entries, (qsort entries).Perm entries) {pseudo : Bool} {fuel : Nat}
    {entries : List Entry} {all : List ZipChunk} (read : readEntries img = some entries)
    (accepts : readZip L full img qsort pseudo fuel = some (some all)) :
    (Covers img.size (if pseudo then all.tail else all) ∧ all.length ≤ entries.length * 2 + 2) ↔
      Laid img.size 0 (qsort entries) := by
  have ints : ∀ e ∈ qsort entries, IntEntry e := fun e member =>
    readEntries_ints read e ((perm entries).mem_iff.mp member)
  rw [readZip, read] at accepts
  obtain ⟨later, rfl, runs⟩ := zipLoop_runs ints accepts
  have size := size_of_runs runs (by unfold IsInt; decide)
  have count := (runs_length runs size).1
  rw [(perm entries).length_eq] at count
  have real : (if pseudo then ((if pseudo then [pseudoChunk img] else []) ++ later).tail
      else (if pseudo then [pseudoChunk img] else []) ++ later) = later := by
    cases pseudo <;> rfl
  have length : ((if pseudo then [pseudoChunk img] else []) ++ later).length ≤ entries.length * 2 + 2 := by
    cases pseudo
    · simp only [Bool.false_eq_true, if_false, nil_append]
      omega
    · simp only [if_true, singleton_append, length_cons]
      omega
  rw [real, and_iff_left length]
  exact runs_tile_iff runs size le_rfl (Int.natCast_nonneg _)

end Chunks

/-! A zip file with one entry, and the same file with its directory record twice. -/

/-- What `qsort` does, with equal offsets in any order. -/
def sortEntries (entries : List Entry) : List Entry := entries.insertionSort fun a b => a.dataOffset ≤ b.dataOffset
/-- A local header and the data of an entry of the name `a`, compressed length 3 and length 1. -/
def localEntry : Bytes :=
  [0x50, 0x4b, 0x03, 0x04] ++ List.replicate 22 0 ++ [1, 0, 0, 0, 97] ++ [0x63, 0x07, 0x00]
def record : Bytes :=
  [0x50, 0x4b, 0x01, 0x02, 0, 0, 0, 0, 0, 0, 8, 0] ++ List.replicate 8 0 ++ [3, 0, 0, 0, 1, 0, 0, 0, 1, 0] ++
    List.replicate 16 0 ++ [97]
def endRecord (count : UInt8) : Bytes :=
  [0x50, 0x4b, 0x05, 0x06, 0, 0, 0, 0, count, 0, count, 0, 0, 0, 0, 0, 34, 0, 0, 0, 0, 0]
def oneRecord : Blob := blobOf (localEntry ++ record ++ endRecord 1)
def twoRecords : Blob := blobOf (localEntry ++ record ++ record ++ endRecord 2)

theorem oneRecord_covered : Covers oneRecord.size
      [normalChunk 0 31, deflateChunk 31 ⟨31, 3, 1, [97]⟩, normalChunk 34 69] ∧ 3 ≤ 1 * 2 + 2 := by
  have read : readEntries oneRecord = some [⟨31, 3, 1, [97]⟩] := by decide +kernel
  have accepts : readZip StoredLibs.storedLibs true oneRecord sortEntries false 4 =
      some (some [normalChunk 0 31, deflateChunk 31 ⟨31, 3, 1, [97]⟩, normalChunk 34 69]) := by
    decide +kernel
  have laid : Laid oneRecord.size 0 [⟨31, 3, 1, [97]⟩] := by
    refine Or.inr ⟨by decide, by decide, Or.inr ⟨by decide, by decide, trivial⟩⟩
  exact (zip_covered_iff (fun entries => perm_insertionSort _ entries) read accepts).mpr laid
theorem twoRecords_uncovered : ∃ all, readZip StoredLibs.storedLibs true twoRecords sortEntries false 6 = some (some all) ∧
    ¬ Covers twoRecords.size all := by
  refine ⟨[normalChunk 0 31, deflateChunk 31 ⟨31, 3, 1, [97]⟩, normalChunk 34 (-3), deflateChunk 31 ⟨31, 3, 1, [97]⟩,
    normalChunk 34 116], by decide +kernel, ?_⟩
  -- the second chunk of the entry begins where the first one did, not behind the two before it
  rintro ⟨_, _, _, _, _, _, back, _⟩
  revert back
  decide

end Recovery.ZipChunks
