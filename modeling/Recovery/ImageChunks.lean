import Recovery.Numbers
import Recovery.StoredLibs

/-!
`ReadImage` of `imgdiff.c`: the image is cut into normal chunks and, for each gzip header that the
scan comes to, a chunk for the header, one for the deflate stream and one for the footer.
-/
namespace Recovery.ImageChunks
open Memory Numbers Option

/-! ## Chunks that tile a file -/

/-- A chunk of a file: where it starts, the bytes of the file that it stands for (`deflate_len` of a
    deflate chunk), and the length of its data. -/
structure Chunk where
  deflate : Bool
  start : Int
  extent : Int
  len : Nat
  deriving DecidableEq, Repr

/-- The chunks cover the file from one place to another, in order. -/
def Tiles : Int → Int → List Chunk → Prop
  | first, last, [] => first = last
  | first, last, c :: rest => c.start = first ∧ 0 ≤ c.extent ∧ Tiles (first + c.extent) last rest

variable {first last : Int}

theorem tiles_append {front back : List Chunk} :
    Tiles first last (front ++ back) ↔ ∃ middle, Tiles first middle front ∧ Tiles middle last back := by
  induction front generalizing first with
  | nil => simp [Tiles]
  | cons c rest ih =>
    simp only [List.cons_append,Tiles,ih]
    constructor
    · rintro ⟨start,positive,middle,before,behind⟩
      exact ⟨middle,⟨start,positive,before⟩,behind⟩
    · rintro ⟨middle,⟨start,positive,before⟩,behind⟩
      exact ⟨start,positive,middle,before,behind⟩

variable {chunks : List Chunk}

private theorem tiles_end {last' : Int} (tiles : Tiles first last chunks)
    (tiles' : Tiles first last' chunks) : last = last' := by
  induction chunks generalizing first with
  | nil => exact tiles.symm.trans tiles'
  | cons c rest ih => exact ih tiles.2.2 tiles'.2.2
theorem tiles_le (tiles : Tiles first last chunks) : first ≤ last := by
  induction chunks generalizing first with
  | nil => exact le_of_eq tiles
  | cons c rest ih =>
    have later := ih tiles.2.2
    have positive := tiles.2.1
    omega
theorem tiles_snoc (tiles : Tiles first last chunks) (deflate : Bool)
    {extent : Int} (positive : 0 ≤ extent) (len : Nat) :
    Tiles first (last + extent) (chunks ++ [⟨deflate,last,extent,len⟩]) :=
  tiles_append.mpr ⟨last,tiles,rfl,positive,rfl⟩

/-! ## The model -/

/-- An image in memory with the four zero bytes that `ReadImage` appends; what stands behind them is
    not known. -/
structure Image where
  size : Nat
  memory : Nat → UInt8
  padded : ∀ i < 4, memory (size + i) = 0

def Image.bytes (img : Image) (start n : Nat) : Bytes := (List.range n).map fun i => img.memory (start + i)
def Image.header (img : Image) (place : Nat) : Prop :=
  img.memory place = 0x1f ∧ img.memory (place + 1) = 0x8b ∧ img.memory (place + 2) = 0x08 ∧ img.memory (place + 3) = 0

instance (img : Image) (place : Nat) : Decidable (img.header place) := inferInstanceAs (Decidable (_ ∧ _))

def gzipHeaderLen : Nat := 10
def gzipFooterLen : Nat := 8

def scanLen (img : Image) : Nat → Nat → Nat
  | _, 0 => 0
  | place, left + 1 => if img.header place then 0 else scanLen img (place + 1) left + 1

section Reading
variable (L : Libs) (full : Bool) (img : Image)

/-- The calls of `inflate` for a stream of `n` bytes, each with the room that is left, an unsigned
    int; the buffer is doubled whenever it is full. `full` tells whether a call that fills its room
    up to the last byte sees the end of the stream. -/
def inflateLoop (n : Nat) : Nat → Nat → Nat → Nat → Option Nat
  | 0, _, _, _ => none
  | fuel + 1, allocated, len, done =>
    let room := unsigned 32 ((allocated : Int) - len)
    let left := n - done
    let len := unsigned 64 ((allocated : Int) - (room - min left room : Nat))
    if left < room ∨ left = room ∧ full then some len
    else inflateLoop n fuel (if room - min left room = 0 then unsigned 64 (2 * allocated) else allocated) len
      (done + min left room)

/-- The input of the stream behind a header at a position; `avail_in` is an unsigned int. -/
def availIn (pos : Nat) : Nat := unsigned 32 ((img.size : Int) - (pos + gzipHeaderLen : Nat))
def stream (pos : Nat) : Inflated := L.inflate (img.bytes (pos + gzipHeaderLen) (availIn img pos))
def inflated (fuel pos : Nat) : Option Nat :=
  if (stream L img pos).fin = .ended then inflateLoop full (stream L img pos).out.length fuel 32768 0 0 else none
def deflateLen (pos : Nat) : Nat :=
  unsigned 64 ((img.size : Int) - (availIn img pos - (stream L img pos).used : Nat) - (pos + gzipHeaderLen : Nat))
/-- The end of the stream, and the place behind the footer; positions are of type `size_t`. -/
def streamEnd (pos : Nat) : Nat := unsigned 64 (pos + gzipHeaderLen + deflateLen L img pos : Nat)
def behind (pos : Nat) : Nat := unsigned 64 (streamEnd L img pos + gzipFooterLen : Nat)
def footerSize (pos : Nat) : Nat := unsigned 64 (read4 (img.bytes (behind L img pos - 4) 4))

def gzipChunks (pos len : Nat) : List Chunk :=
  [⟨false, pos, gzipHeaderLen, gzipHeaderLen⟩, ⟨true, pos + gzipHeaderLen, deflateLen L img pos, len⟩,
    ⟨false, streamEnd L img pos, gzipFooterLen, gzipFooterLen⟩]

/-- The loop of `ReadImage`: the list of chunks, or none inside for NULL; none when it does not end
    with so much fuel. -/
def readLoop : Nat → Nat → List Chunk → Option (Option (List Chunk))
  | 0, _, _ => none
  | fuel + 1, pos, chunks =>
    if pos < img.size then
      if 4 ≤ img.size - pos ∧ img.header pos then
        match inflated L full img fuel pos with
        | none => none
        | some len =>
          if footerSize L img pos ≠ len then some none
          else readLoop fuel (behind L img pos) (chunks ++ gzipChunks L img pos len)
      else
        let len := scanLen img pos (img.size - pos)
        readLoop fuel (pos + len) (chunks ++ [⟨false, pos, len, len⟩])
    else some (some chunks)

def Returns (result : Option (List Chunk)) : Prop := ∃ fuel, readLoop L full img fuel 0 [] = some result

end Reading

/-! ## The decompression -/

section Inflating
variable {full : Bool} {n : Nat} {fuel : Nat}

private theorem inflateLoop_step {a h : Nat} (less : h < a) (small : a ≤ 2 ^ 32) (room : a - h < 2 ^ 32) (there : h ≤ n) :
    inflateLoop full n (fuel + 1) a h h = if n < a ∨ n = a ∧ full then some n else inflateLoop full n fuel (2 * a) a a := by
  have room32 : unsigned 32 ((a : Int) - h) = a - h := by
    unfold unsigned
    omega
  have same : (n - h < a - h ∨ n - h = a - h ∧ full) ↔ (n < a ∨ n = a ∧ full) :=
    or_congr (by omega) (and_congr (by omega) Iff.rfl)
  rw [inflateLoop]
  simp only [room32,same]
  by_cases ends : n < a ∨ n = a ∧ full
  · rw [if_pos ends,if_pos ends]
    congr 1
    unfold unsigned
    omega
  · have fills : min (n - h) (a - h) = a - h := by omega
    have doubled : unsigned 64 (2 * a : Int) = 2 * a := by
      unfold unsigned
      omega
    have whole : unsigned 64 ((a : Int) - (0 : Nat)) = a := by
      unfold unsigned
      omega
    rw [if_neg ends,if_neg ends,fills,Nat.sub_self,if_pos rfl,doubled,whole,Nat.add_sub_cancel' less.le]
private theorem inflateLoop_never {a h done : Nat} (whole : 2 ^ 32 ∣ a) (whole' : 2 ^ 32 ∣ h)
    (more : done < n ∨ full = false) : inflateLoop full n fuel a h done = none := by
  induction fuel generalizing a h with
  | zero => rfl
  | succ fuel ih =>
    have none : unsigned 32 ((a : Int) - h) = 0 := by
      unfold unsigned
      omega
    have goes : ¬ (n - done < 0 ∨ n - done = 0 ∧ full = true) := by
      rintro (negative | ⟨zero,ends⟩)
      · omega
      · rcases more with left | shut
        · omega
        · rw [shut] at ends
          cases ends
    rw [inflateLoop]
    simp only [none,if_neg goes,Nat.min_zero,Nat.sub_self,if_true,Nat.add_zero]
    refine ih ?_ ?_
    · unfold unsigned
      omega
    · unfold unsigned
      omega

/-- What is filled when the buffer has been doubled some times. -/
def filled : Nat → Nat
  | 0 => 0
  | k + 1 => 2 ^ (15 + k)

theorem filled_step {k : Nat} (few : k ≤ 17) (there : filled k ≤ n) :
    inflateLoop full n (fuel + 1) (2 ^ (15 + k)) (filled k) (filled k) =
      if n < 2 ^ (15 + k) ∨ n = 2 ^ (15 + k) ∧ full then some n
      else inflateLoop full n fuel (2 ^ (15 + (k + 1))) (filled (k + 1)) (filled (k + 1)) := by
  have bound : 2 ^ (15 + k) ≤ 2 ^ 32 := Nat.pow_le_pow_right (by decide) (by omega)
  have positive : 0 < 2 ^ (15 + k) := Nat.two_pow_pos _
  have double : 2 ^ (15 + (k + 1)) = 2 * 2 ^ (15 + k) := by rw [← Nat.add_assoc,Nat.pow_succ,Nat.mul_comm]
  have half : filled k < 2 ^ (15 + k) ∧ 2 ^ (15 + k) - filled k < 2 ^ 32 := by
    cases k with
    | zero => decide
    | succ k =>
      have before : 2 ^ (15 + (k + 1)) = 2 * 2 ^ (15 + k) := by rw [← Nat.add_assoc,Nat.pow_succ,Nat.mul_comm]
      simp only [filled]
      omega
  rw [inflateLoop_step half.1 bound half.2 there,double]
  rfl
theorem inflateLoop_ends (small : n < 2 ^ 32 ∨ n = 2 ^ 32 ∧ full) (enough : 18 ≤ fuel) :
    inflateLoop full n fuel 32768 0 0 = some n := by
  have steps (j : Nat) : ∀ k fuel, j + k = 17 → filled k ≤ n → j < fuel →
      inflateLoop full n fuel (2 ^ (15 + k)) (filled k) (filled k) = some n := by
    induction j with
    | zero =>
      intro k fuel last there enough
      obtain ⟨fuel,rfl⟩ : ∃ less, fuel = less + 1 := ⟨fuel - 1,by omega⟩
      obtain rfl : k = 17 := by omega
      rw [filled_step le_rfl there]
      exact if_pos small
    | succ j ih =>
      intro k fuel sum there enough
      obtain ⟨fuel,rfl⟩ : ∃ less, fuel = less + 1 := ⟨fuel - 1,by omega⟩
      rw [filled_step (by omega) there]
      split
      · rfl
      · exact ih (k + 1) fuel (by omega) (by simp only [filled]; omega) (by omega)
  exact steps 17 0 fuel rfl (Nat.zero_le n) (by omega)
private theorem inflateLoop_large (large : ¬ (n < 2 ^ 32 ∨ n = 2 ^ 32 ∧ full)) (fuel : Nat) :
    inflateLoop full n fuel 32768 0 0 = none := by
  have steps (j : Nat) : ∀ k fuel, j + k = 18 → filled k ≤ n →
      inflateLoop full n fuel (2 ^ (15 + k)) (filled k) (filled k) = none := by
    induction j with
    | zero =>
      intro k fuel last there
      obtain rfl : k = 18 := by omega
      refine inflateLoop_never (by decide) (by decide) ?_
      simp only [filled]
      cases full with
      | false => exact .inr rfl
      | true =>
        left
        simp only [and_true] at large
        omega
    | succ j ih =>
      intro k fuel sum there
      have bound : 2 ^ (15 + k) ≤ 2 ^ 32 := Nat.pow_le_pow_right (by decide) (by omega)
      cases fuel with
      | zero => rfl
      | succ fuel =>
        have goes : ¬ (n < 2 ^ (15 + k) ∨ n = 2 ^ (15 + k) ∧ full) := by
          rintro (less | ⟨equal,ends⟩)
          · exact large (.inl (by omega))
          · rcases Nat.lt_or_ge n (2 ^ 32) with few | many
            · exact large (.inl few)
            · exact large (.inr ⟨by omega,ends⟩)
        rw [filled_step (by omega) there,if_neg goes]
        exact ih (k + 1) fuel (by omega) (by simp only [filled]; omega)
  exact steps 18 0 fuel rfl (Nat.zero_le n)

end Inflating

private theorem inflateLoop_more {full : Bool} {n fuel a h done r : Nat} (ended : inflateLoop full n fuel a h done = some r)
    (extra : Nat) : inflateLoop full n (fuel + extra) a h done = some r := by
  induction fuel generalizing a h done with
  | zero => cases ended
  | succ fuel ih =>
    rw [Nat.succ_add,inflateLoop]
    rw [inflateLoop] at ended
    split
    · rename_i ends
      rwa [if_pos ends] at ended
    · rename_i goes
      rw [if_neg goes] at ended
      exact ih ended

/-! ## The scan -/

section Scanning
variable {img : Image}

private theorem scanLen_le (img : Image) (place left : Nat) : scanLen img place left ≤ left := by
  induction left generalizing place with
  | zero => exact le_rfl
  | succ left ih =>
    rw [scanLen]
    split
    · exact Nat.zero_le _
    · exact Nat.succ_le_succ (ih (place + 1))
/-- The image ends in 1f 8b 08, which is a header with the zero bytes behind it. -/
def Tail (img : Image) (pos : Nat) : Prop := pos + 3 = img.size ∧ img.header pos
def GzipAt (img : Image) (pos : Nat) : Prop := 4 ≤ img.size - pos ∧ img.header pos

private theorem header_inside {pos : Nat} (more : pos < img.size) (header : img.header pos) : GzipAt img pos ∨ Tail img pos := by
  obtain ⟨_,second,third,_⟩ := id header
  by_cases long : 4 ≤ img.size - pos
  · exact .inl ⟨long,header⟩
  refine .inr ⟨?_,header⟩
  by_contra short
  rcases (by omega : pos + 1 = img.size ∨ pos + 2 = img.size) with one | two
  · rw [one,show img.memory img.size = 0 from img.padded 0 (by decide)] at second
    cases second
  · rw [two,show img.memory img.size = 0 from img.padded 0 (by decide)] at third
    cases third
private theorem scanLen_pos {pos : Nat} (more : pos < img.size) (no : ¬ GzipAt img pos) (noTail : ¬ Tail img pos) :
    0 < scanLen img pos (img.size - pos) := by
  obtain ⟨left,left_eq⟩ : ∃ left, img.size - pos = left + 1 := ⟨img.size - pos - 1,by omega⟩
  rw [left_eq,scanLen,if_neg fun header => ?_]
  · exact Nat.succ_pos _
  · rcases header_inside more header with found | tail
    · exact no found
    · exact noTail tail
theorem scanLen_tail {pos : Nat} (tail : Tail img pos) : scanLen img pos (img.size - pos) = 0 := by
  have three : img.size - pos = 2 + 1 := by
    have := tail.1
    omega
  rw [three,scanLen,if_pos tail.2]

end Scanning

/-! ## Where the chunks tile the image -/

section Tiling
variable (L : Libs) (full : Bool) (img : Image)

/-- The stream ends in the input that `inflate` gets, and its length fits the room that is given. -/
def Served (pos : Nat) : Prop := (stream L img pos).fin = .ended ∧
  ((stream L img pos).out.length < 2 ^ 32 ∨ (stream L img pos).out.length = 2 ^ 32 ∧ full)
def FooterRight (pos : Nat) : Prop := footerSize L img pos = (stream L img pos).out.length

/-- The positions that the main loop comes to. -/
inductive Reached : Nat → Prop
  | start : Reached 0
  | scan {pos : Nat} (before : Reached pos) (more : pos < img.size) (no : ¬ GzipAt img pos) :
      Reached (pos + scanLen img pos (img.size - pos))
  | gzip {pos : Nat} (before : Reached pos) (found : GzipAt img pos) (served : Served L full img pos)
      (right : FooterRight L img pos) : Reached (behind L img pos)

/-- A footer that is right lies in the image, and the position is not the tail. -/
def Sane (pos : Nat) : Prop :=
  (GzipAt img pos → Served L full img pos ∧ (FooterRight L img pos → behind L img pos ≤ img.size)) ∧ ¬ Tail img pos

/-- Each deflate stream behind a gzip header in the image ends in the image. -/
def StreamsEnd : Prop := ∀ pos, GzipAt img pos → pos + gzipHeaderLen ≤ img.size ∧
  (L.inflate (img.bytes (pos + gzipHeaderLen) (img.size - (pos + gzipHeaderLen)))).fin = .ended
/-- `ReadImage` returns, and a list of chunks that it returns tiles the image. -/
def Tiled : Prop := ∃ result, Returns L full img result ∧ ∀ chunks, result = some chunks → Tiles 0 img.size chunks

variable {L full img} {pos fuel : Nat}

theorem inflated_served (served : Served L full img pos) (enough : 18 ≤ fuel) :
    inflated L full img fuel pos = some (stream L img pos).out.length := by
  rw [inflated,if_pos served.1,inflateLoop_ends served.2 enough]
theorem served_of_inflated {len : Nat} (ended : inflated L full img fuel pos = some len) :
    Served L full img pos ∧ len = (stream L img pos).out.length := by
  unfold inflated at ended
  split at ended
  · rename_i fin
    by_cases small : (stream L img pos).out.length < 2 ^ 32 ∨ (stream L img pos).out.length = 2 ^ 32 ∧ full
    · have more := inflateLoop_more ended 18
      rw [inflateLoop_ends small (by omega)] at more
      exact ⟨⟨fin,small⟩,(some.inj more).symm⟩
    · rw [inflateLoop_large small] at ended
      cases ended
  · cases ended

theorem positions_plain (size : img.size < 2 ^ 63) (ends : StreamsEnd L img) (found : GzipAt img pos) :
    streamEnd L img pos = pos + gzipHeaderLen + deflateLen L img pos ∧
      behind L img pos = pos + gzipHeaderLen + deflateLen L img pos + gzipFooterLen := by
  have inside := (ends pos found).1
  have few : availIn img pos ≤ img.size - (pos + gzipHeaderLen) := by
    unfold availIn unsigned
    omega
  have length : pos + gzipHeaderLen + deflateLen L img pos ≤ img.size := by
    unfold deflateLen unsigned
    omega
  have near : streamEnd L img pos = pos + gzipHeaderLen + deflateLen L img pos := by
    unfold streamEnd unsigned
    omega
  refine ⟨near,?_⟩
  unfold behind unsigned
  simp only [gzipHeaderLen,gzipFooterLen] at *
  omega

variable {chunks : List Chunk}

theorem tiles_gzip (size : img.size < 2 ^ 63) (ends : StreamsEnd L img) (found : GzipAt img pos)
    (tiles : Tiles 0 pos chunks) (len : Nat) :
    Tiles 0 (behind L img pos) (chunks ++ gzipChunks L img pos len) := by
  obtain ⟨near,far⟩ := positions_plain size ends found
  refine tiles_append.mpr ⟨pos,tiles,?_⟩
  refine ⟨rfl,Int.natCast_nonneg _,rfl,Int.natCast_nonneg _,?_,Int.natCast_nonneg _,?_⟩
  · simp only [near]
    rfl
  · rw [far]
    rfl

theorem readLoop_gzip (found : GzipAt img pos) :
    readLoop L full img (fuel + 1) pos chunks = match inflated L full img fuel pos with
      | none => none
      | some len => if footerSize L img pos ≠ len then some none
          else readLoop L full img fuel (behind L img pos) (chunks ++ gzipChunks L img pos len) := by
  have more : pos < img.size := by
    have := found.1
    omega
  rw [readLoop,if_pos more,if_pos (show 4 ≤ img.size - pos ∧ img.header pos from found)]
theorem readLoop_scan (more : pos < img.size) (no : ¬ GzipAt img pos) :
    readLoop L full img (fuel + 1) pos chunks = readLoop L full img fuel (pos + scanLen img pos (img.size - pos))
      (chunks ++ [⟨false,pos,scanLen img pos (img.size - pos),scanLen img pos (img.size - pos)⟩]) := by
  rw [readLoop,if_pos more,if_neg (show ¬ (4 ≤ img.size - pos ∧ img.header pos) from no)]
theorem readLoop_end (last : img.size ≤ pos) :
    readLoop L full img (fuel + 1) pos chunks = some (some chunks) := by
  rw [readLoop,if_neg (by omega)]

/-- From a position that is reached the loop returns, if all positions that are reached are sane. -/
theorem readLoop_tiles (size : img.size < 2 ^ 63) (ends : StreamsEnd L img)
    (sane : ∀ pos, Reached L full img pos → pos < img.size → Sane L full img pos)
    (reached : Reached L full img pos) (inside : pos ≤ img.size) (tiles : Tiles 0 pos chunks) :
    ∃ enough result, (∀ fuel ≥ enough, readLoop L full img fuel pos chunks = some result) ∧
      ∀ list, result = some list → Tiles 0 img.size list := by
  -- every round brings the position on
  induction left : img.size - pos using Nat.strong_induction_on generalizing pos chunks with
  | _ left ih =>
    rcases Nat.lt_or_ge pos img.size with more | last
    · obtain ⟨gzip,noTail⟩ := sane pos reached more
      by_cases found : GzipAt img pos
      · obtain ⟨served,fits⟩ := gzip found
        by_cases right : FooterRight L img pos
        · have far := (positions_plain size ends found).2
          have next := fits right
          obtain ⟨enough,result,run,whole⟩ := ih (img.size - behind L img pos) (by
              simp only [gzipHeaderLen,gzipFooterLen] at far
              omega) (.gzip reached found served right) next
            (tiles_gzip size ends found tiles (stream L img pos).out.length) rfl
          refine ⟨max enough 18 + 1,result,fun fuel more => ?_,whole⟩
          obtain ⟨fuel,rfl⟩ : ∃ less, fuel = less + 1 := ⟨fuel - 1,by omega⟩
          have same : footerSize L img pos = (stream L img pos).out.length := right
          rw [readLoop_gzip found,inflated_served served (by omega)]
          simp only [same,ne_eq,not_true_eq_false,if_false]
          exact run fuel (by omega)
        · refine ⟨19,none,fun fuel more => ?_,fun _ h => by cases h⟩
          obtain ⟨fuel,rfl⟩ : ∃ less, fuel = less + 1 := ⟨fuel - 1,by omega⟩
          rw [readLoop_gzip found,inflated_served served (by omega)]
          exact if_pos right
      · have positive := scanLen_pos more found noTail
        have most := scanLen_le img pos (img.size - pos)
        have further : Tiles 0 (pos + scanLen img pos (img.size - pos) : Nat)
            (chunks ++ [⟨false,pos,scanLen img pos (img.size - pos),scanLen img pos (img.size - pos)⟩]) := by
          exact tiles_snoc tiles false (Int.natCast_nonneg _) _
        obtain ⟨enough,result,run,whole⟩ := ih (img.size - (pos + scanLen img pos (img.size - pos))) (by omega)
          (.scan reached more found) (by omega) further rfl
        refine ⟨enough + 1,result,fun fuel more' => ?_,whole⟩
        obtain ⟨fuel,rfl⟩ : ∃ less, fuel = less + 1 := ⟨fuel - 1,by omega⟩
        rw [readLoop_scan more found]
        exact run fuel (by omega)
    · obtain rfl : pos = img.size := by omega
      refine ⟨1,some chunks,fun fuel more => ?_,fun list equal => ?_⟩
      · obtain ⟨fuel,rfl⟩ : ∃ less, fuel = less + 1 := ⟨fuel - 1,by omega⟩
        exact readLoop_end le_rfl
      · obtain rfl := some.inj equal
        exact tiles

theorem readLoop_tail (tail : Tail img pos) (fuel : Nat) (chunks : List Chunk) :
    readLoop L full img fuel pos chunks = none := by
  induction fuel generalizing chunks with
  | zero => rfl
  | succ fuel ih =>
    have short := tail.1
    rw [readLoop_scan (by omega) fun found => by have := found.1; omega,scanLen_tail tail]
    exact ih _
/-- A run that returns comes to every position that is reached, with chunks that tile the image so far. -/
theorem readLoop_reaches (size : img.size < 2 ^ 63) (ends : StreamsEnd L img) {result : Option (List Chunk)}
    (returns : Returns L full img result) (reached : Reached L full img pos) :
    ∃ fuel chunks, readLoop L full img fuel pos chunks = some result ∧ Tiles 0 pos chunks := by
  induction reached with
  | start =>
    obtain ⟨fuel,run⟩ := returns
    exact ⟨fuel,[],run,rfl⟩
  | @scan pos before more no ih =>
    obtain ⟨fuel,chunks,run,tiles⟩ := ih
    cases fuel with
    | zero => cases run
    | succ fuel =>
      rw [readLoop_scan more no] at run
      refine ⟨fuel,_,run,?_⟩
      exact tiles_snoc tiles false (Int.natCast_nonneg _) _
  | @gzip pos before found served right ih =>
    obtain ⟨fuel,chunks,run,tiles⟩ := ih
    cases fuel with
    | zero => cases run
    | succ fuel =>
      rw [readLoop_gzip found] at run
      cases ended : inflated L full img fuel pos with
      | none =>
        rw [ended] at run
        cases run
      | some len =>
        obtain ⟨_,rfl⟩ := served_of_inflated ended
        have same : footerSize L img pos = (stream L img pos).out.length := right
        rw [ended] at run
        simp only [same,ne_eq,not_true_eq_false,if_false] at run
        exact ⟨fuel,_,run,tiles_gzip size ends found tiles _⟩
/-- Where the chunks tile the image, every position that is reached is sane. -/
theorem sane_of_tiled (size : img.size < 2 ^ 63) (ends : StreamsEnd L img) (tiled : Tiled L full img)
    (reached : Reached L full img pos) : Sane L full img pos := by
  obtain ⟨result,returns,whole⟩ := tiled
  obtain ⟨fuel,chunks,run,tiles⟩ := readLoop_reaches size ends returns reached
  refine ⟨fun found => ?_,fun tail => by rw [readLoop_tail tail] at run; cases run⟩
  cases fuel with
  | zero => cases run
  | succ fuel =>
    rw [readLoop_gzip found] at run
    cases ended : inflated L full img fuel pos with
    | none =>
      rw [ended] at run
      cases run
    | some len =>
      obtain ⟨served,rfl⟩ := served_of_inflated ended
      refine ⟨served,fun right => ?_⟩
      -- behind the end of the image the loop returns at once
      by_contra beyond
      obtain ⟨fuel',chunks',run',tiles'⟩ := readLoop_reaches size ends returns (.gzip reached found served right)
      cases fuel' with
      | zero => cases run'
      | succ fuel' =>
        rw [readLoop_end (by omega)] at run'
        have same := tiles_end tiles' (whole chunks' (some.inj run').symm)
        omega

/-- On an image whose deflate streams end in it, `ReadImage` returns and its chunks tile the image if
    and only if every position that the main loop comes to is sane. -/
theorem image_tiled_iff (size : img.size < 2 ^ 63) (ends : StreamsEnd L img) :
    Tiled L full img ↔ ∀ pos, Reached L full img pos → pos < img.size → Sane L full img pos := by
  constructor
  · exact fun tiled pos reached _ => sane_of_tiled size ends tiled reached
  · intro sane
    have empty : Tiles 0 (0 : Nat) [] := rfl
    obtain ⟨enough, result, run, whole⟩ := readLoop_tiles size ends sane .start (Nat.zero_le _) empty
    exact ⟨result, ⟨enough, run enough le_rfl⟩, whole⟩

end Tiling

/-! An image with one gzip stream, and one that ends in the first three bytes of a header. -/

def imageOf (bytes : Bytes) : Image where
  size := bytes.length
  memory i := bytes.getD i 0
  padded i _ := by simp
def gzipImage : Image :=
  imageOf ([0x1f, 0x8b, 0x08, 0, 0, 0, 0, 0, 0, 0] ++ [0x63, 0x07, 0x00] ++ [0, 0, 0, 0, 1, 0, 0, 0])
def tailImage : Image := imageOf [0x1f, 0x8b, 0x08]

theorem gzipImage_header : ∀ pos < 21, gzipImage.header pos → pos = 0 := by decide +kernel
theorem gzipAt_start {pos : Nat} (found : GzipAt gzipImage pos) : pos = 0 := by
  have size : gzipImage.size = 21 := by decide +kernel
  have long := found.1
  exact gzipImage_header pos (by omega) found.2
theorem gzipImage_reached {pos : Nat} (reached : Reached StoredLibs.storedLibs true gzipImage pos) : pos = 0 ∨ pos = 21 := by
  have first : GzipAt gzipImage 0 := by
    unfold GzipAt
    decide +kernel
  have size : gzipImage.size = 21 := by decide +kernel
  induction reached with
  | start => exact .inl rfl
  | scan before more no ih =>
    rcases ih with rfl | rfl
    · exact absurd first no
    · omega
  | gzip before found served right ih =>
    obtain rfl := gzipAt_start found
    right
    decide +kernel

theorem gzipImage_tiled : Tiled StoredLibs.storedLibs true gzipImage := by
  have size : gzipImage.size = 21 := by decide +kernel
  refine (image_tiled_iff (by decide +kernel) fun pos found => ?_).mpr fun pos reached more => ?_
  · obtain rfl := gzipAt_start found
    decide +kernel
  obtain rfl : pos = 0 := (gzipImage_reached reached).resolve_right (by omega)
  refine ⟨fun _ => ⟨?_, fun _ => ?_⟩, ?_⟩
  · unfold Served
    decide +kernel
  · decide +kernel
  · unfold Tail
    decide +kernel
theorem tailImage_loops : StreamsEnd StoredLibs.storedLibs tailImage ∧
    (∀ result, ¬ Returns StoredLibs.storedLibs true tailImage result) ∧
    ¬ Tiled StoredLibs.storedLibs true tailImage := by
  have loops (result : Option (List Chunk)) : ¬ Returns StoredLibs.storedLibs true tailImage result := by
    rintro ⟨fuel, run⟩
    rw [readLoop_tail (by unfold Tail; decide)] at run
    cases run
  refine ⟨?_, loops, fun ⟨result, returns, _⟩ => loops result returns⟩
  rintro pos ⟨long, _⟩
  exact absurd long (by simp only [tailImage, imageOf, List.length_cons, List.length_nil]; omega)

end Recovery.ImageChunks
