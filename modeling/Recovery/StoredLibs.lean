import Recovery.Libs
import Recovery.Numbers

/-!
One concrete choice of the libraries: SHA-1 itself, and the compressed streams of the strings that are
used here in tables. Other strings are stored, each byte after a 1 and a 0 at the end.
-/
namespace Recovery.StoredLibs
open Memory Numbers

/-! ## SHA-1 -/

def rotl (n x : Nat) : Nat := (x <<< n ||| x >>> (32 - n)) % 2 ^ 32
def beVal (b : Bytes) : Nat := b.foldl (fun n x => n <<< 8 ||| x.toNat) 0
def beBytes (n : Nat) : Bytes := (leBytes 4 n).reverse

/-- The message, a one bit, zeros, and the bit length in eight bytes. -/
def padded (msg : Bytes) : Bytes :=
  msg ++ [0x80] ++ List.replicate ((119 - msg.length % 64) % 64) 0 ++ (leBytes 8 (8 * msg.length)).reverse

structure Digest where
  a : Nat
  b : Nat
  c : Nat
  d : Nat
  e : Nat

def Digest.add (x y : Digest) : Digest :=
  ⟨(x.a + y.a) % 2 ^ 32, (x.b + y.b) % 2 ^ 32, (x.c + y.c) % 2 ^ 32, (x.d + y.d) % 2 ^ 32, (x.e + y.e) % 2 ^ 32⟩

/-- The function and the constant of round `t`. -/
def mix (t : Nat) (x : Digest) : Nat :=
  if t < 20 then ((x.b &&& x.c) ||| ((0xFFFFFFFF ^^^ x.b) &&& x.d)) + 0x5A827999
  else if t < 40 then (x.b ^^^ x.c ^^^ x.d) + 0x6ED9EBA1
  else if t < 60 then ((x.b &&& x.c) ||| (x.b &&& x.d) ||| (x.c &&& x.d)) + 0x8F1BBCDC
  else (x.b ^^^ x.c ^^^ x.d) + 0xCA62C1D6

/-- The rounds from `t` on, with the next sixteen words of the schedule. -/
def digestRounds : Nat → Nat → List Nat → Digest → Digest
  | 0, _, _, x => x
  | left + 1, t, words, x =>
    let w := words.getD 0 0
    let next := rotl 1 (words.getD 13 0 ^^^ words.getD 8 0 ^^^ words.getD 2 0 ^^^ w)
    let a := (rotl 5 x.a + mix t x + x.e + w) % 2 ^ 32
    digestRounds left (t + 1) (words.drop 1 ++ [next]) ⟨a, x.a, rotl 30 x.b, x.c, x.d⟩

def digestBlocks : Nat → Bytes → Digest → Digest
  | 0, _, x => x
  | left + 1, msg, x =>
    let words := (List.range 16).map fun i => beVal ((msg.drop (4 * i)).take 4)
    digestBlocks left (msg.drop 64) (x.add (digestRounds 80 0 words x))

def sha1 (msg : Bytes) : Bytes :=
  let msg := padded msg
  let x := digestBlocks (msg.length / 64) msg ⟨0x67452301, 0xEFCDAB89, 0x98BADCFE, 0x10325476, 0xC3D2E1F0⟩
  beBytes x.a ++ beBytes x.b ++ beBytes x.c ++ beBytes x.d ++ beBytes x.e

example : sha1 (ascii "abc") = [0xa9, 0x99, 0x3e, 0x36, 0x47, 0x06, 0x81, 0x6a, 0xba, 0x3e, 0x25, 0x71, 0x78, 0x50,
    0xc2, 0x6c, 0x9c, 0xd0, 0xd8, 0x9d] := by decide +kernel

/-! ## Compressed streams -/

/-- A control triple of a bsdiff patch. -/
def triple (x y z : Int) : Bytes := offtout x ++ offtout y ++ offtout z

/-- Strings with what bzip2 writes for them. -/
def bzStreams : List (Bytes × Bytes) :=
  [([], [66, 90, 104, 57, 23, 114, 69, 56, 80, 144, 0, 0, 0, 0]),
    (ascii "T", [66, 90, 104, 57, 49, 65, 89, 38, 83, 89, 218, 100, 157, 144, 0, 0, 0, 2, 0, 4, 0, 32, 0, 33, 24, 70,
    130, 238, 72, 167, 10, 18, 27, 76, 147, 178, 0]),
    (ascii "ST", [66, 90, 104, 57, 49, 65, 89, 38, 83, 89, 183, 39, 238, 213, 0, 0, 0, 2, 0, 12, 0, 32, 0, 33, 0, 130,
    177, 119, 36, 83, 133, 9, 11, 114, 126, 237, 80]),
    (ascii "xy", [66, 90, 104, 57, 49, 65, 89, 38, 83, 89, 198, 201, 244, 65, 0, 0, 0, 0, 128, 0, 96, 32, 0, 33, 0,
    130, 177, 119, 36, 83, 133, 9, 12, 108, 159, 68, 16]),
    (triple 0 1 0, [66, 90, 104, 57, 49, 65, 89, 38, 83, 89, 43, 228, 60, 255, 0, 0, 0, 64, 0, 100, 8, 32, 0, 33, 140,
    131, 52, 209, 9, 93, 56, 187, 146, 41, 194, 132, 129, 95, 33, 231, 248]),
    (triple 0 2 0, [66, 90, 104, 57, 49, 65, 89, 38, 83, 89, 91, 60, 253, 177, 0, 0, 0, 64, 0, 84, 8, 32, 0, 33, 140,
    131, 52, 209, 9, 93, 56, 187, 146, 41, 194, 132, 130, 217, 231, 237, 136]),
    (triple 9 2 1 ++ triple 12 6 (-10), [66, 90, 104, 57, 49, 65, 89, 38, 83, 89, 231, 243, 24, 202, 0, 0, 16, 192,
    64, 121, 52, 64, 0, 32, 0, 33, 41, 160, 202, 8, 50, 98, 30, 57, 27, 40, 32, 138, 94, 68, 248, 187, 146, 41, 194,
    132, 135, 63, 152, 198, 80]),
    ([0, 0, 0, 0, 0, 0, 0, 0, 0, 0, 0, 0, 0, 0, 0, 0, 0, 0, 0, 0, 0], [66, 90, 104, 57, 49, 65, 89, 38, 83, 89, 209,
    163, 32, 130, 0, 0, 0, 96, 0, 64, 0, 32, 0, 32, 0, 33, 0, 130, 131, 23, 114, 69, 56, 80, 144, 209, 163, 32, 130]),
    ([49, 48, 32, 101, 120, 116, 114, 97], [66, 90, 104, 57, 49, 65, 89, 38, 83, 89, 14, 64, 43, 84, 0, 0, 1, 25, 128,
    64, 0, 96, 0, 34, 0, 20, 64, 32, 0, 49, 12, 8, 25, 26, 105, 153, 169, 247, 201, 69, 220, 145, 78, 20, 36, 3, 144,
    10, 213, 0])]
/-- A string with its raw deflate stream. -/
def zlibStreams : List (Bytes × Bytes) := [([7], [0x63, 0x07, 0x00])]

/-- The string whose stream an input starts with. -/
def find (streams : List (Bytes × Bytes)) (input : Bytes) : Option (Bytes × Bytes) :=
  streams.find? fun entry => entry.2.isPrefixOf input
def cutOff (streams : List (Bytes × Bytes)) (input : Bytes) : Bool := streams.any fun entry => input.isPrefixOf entry.2

def store : Bytes → Bytes
  | [] => [0]
  | b :: rest => 1 :: b :: store rest
def unstore : Bytes → Stream
  | mark :: b :: rest =>
    if mark = 0 then ⟨[], .ended⟩
    else if mark = 1 then
      let tail := unstore rest
      ⟨b :: tail.out, tail.fin⟩
    else ⟨[], .corrupt⟩
  | [mark] => if mark = 0 then ⟨[], .ended⟩ else if mark = 1 then ⟨[], .starved⟩ else ⟨[], .corrupt⟩
  | [] => ⟨[], .starved⟩

def bzEncode (data : Bytes) : Bytes := (bzStreams.lookup data).getD (store data)
def bzDecode (input : Bytes) : Stream :=
  match find bzStreams input with
  | some entry => ⟨entry.1, .ended⟩
  | none => if cutOff bzStreams input then ⟨[], .starved⟩ else unstore input
def inflate (input : Bytes) : Inflated :=
  match find zlibStreams input with
  | some entry => ⟨entry.1, .ended, entry.2.length⟩
  | none => if cutOff zlibStreams input then ⟨[], .starved, input.length⟩ else ⟨[], .corrupt, 0⟩

/-- The libraries with these streams, any heap request granted. -/
def storedLibs : Libs where
  sha1 := sha1
  bzEncode := bzEncode
  bzDecode := bzDecode
  inflate := inflate
  deflate _ data := zlibStreams.lookup data
  room _ := true
  junk _ := 0

private theorem unstore_store (data rest : Bytes) : unstore (store data ++ rest) = ⟨data,.ended⟩ := by
  induction data with
  | nil => cases rest <;> simp [store,unstore]
  | cons b data ih => simp [store,unstore,ih]
/-- No stream of the table is the beginning of another, and all begin with a B. -/
theorem bzStreams_apart : (∀ a ∈ bzStreams, ∀ b ∈ bzStreams, a.2 <+: b.2 → a = b) ∧ ∀ a ∈ bzStreams, a.2.head? = some 66 := by
  decide +kernel
theorem mem_of_lookup {streams : List (Bytes × Bytes)} {data stream : Bytes} (found : streams.lookup data = some stream) :
    (data, stream) ∈ streams := by
  obtain ⟨before,after,rfl,-⟩ := List.lookup_eq_some_iff.mp found
  simp
private theorem store_length (data : Bytes) : (store data).length = 2 * data.length + 1 := by
  induction data with
  | nil => rfl
  | cons b data ih => simp only [store,List.length_cons,ih]; omega
theorem bzEncode_length (data : Bytes) : (bzEncode data).length ≤ 2 * data.length + 51 := by
  unfold bzEncode
  cases found : bzStreams.lookup data with
  | none =>
    rw [Option.getD_none,store_length]
    omega
  | some stream =>
    have short : ∀ entry ∈ bzStreams, entry.2.length ≤ 51 := by decide +kernel
    have length : stream.length ≤ 51 := short _ (mem_of_lookup found)
    rw [Option.getD_some]
    omega

theorem storedLibs_bzRoundTrips : BzRoundTrips storedLibs := by
  intro data rest
  change bzDecode (bzEncode data ++ rest) = _
  unfold bzDecode bzEncode
  cases listed : bzStreams.lookup data with
  | some stream =>
    have member := mem_of_lookup listed
    rw [Option.getD_some]
    cases found : find bzStreams (stream ++ rest) with
    | none => exact absurd (List.find?_eq_none.mp found _ member) (by simp)
    | some entry =>
      -- both streams begin the input, so one begins the other
      have starts : entry.2 <+: stream ++ rest := by simpa using List.find?_some found
      have known : entry ∈ bzStreams := List.mem_of_find?_eq_some found
      have same : entry = (data,stream) := by
        rcases List.prefix_or_prefix_of_prefix starts (List.prefix_append stream rest) with first | first
        · exact bzStreams_apart.1 _ known _ member first
        · exact (bzStreams_apart.1 _ member _ known first).symm
      rw [same]
  | none =>
    have mark : (store data ++ rest).head? ≠ some 66 := by cases data <;> simp [store]
    have other (entry) (known : entry ∈ bzStreams) : ¬ entry.2 <+: store data ++ rest ∧ ¬ store data ++ rest <+: entry.2 := by
      have first := bzStreams_apart.2 entry known
      constructor
      · rintro ⟨more,same⟩
        rw [← same,List.head?_append,first] at mark
        exact mark rfl
      · rintro ⟨more,same⟩
        rw [← same,List.head?_append] at first
        cases data <;> simp [store] at first
    have missing : find bzStreams (store data ++ rest) = none := by
      refine List.find?_eq_none.mpr fun entry known => ?_
      simpa using (other entry known).1
    have whole : cutOff bzStreams (store data ++ rest) = false := by
      refine List.any_eq_false.mpr fun entry known => ?_
      simpa using (other entry known).2
    rw [Option.getD_none,missing,whole]
    exact unstore_store data rest

/-- A hash that tells the labelled strings apart from each other and from all others. -/
def labelHash (labels : List Bytes) (data : Bytes) : Bytes := List.replicate 20 (UInt8.ofNat (labels.idxOf data))

def labelledLibs (labels : List Bytes) : Libs := { storedLibs with sha1 := labelHash labels }

end Recovery.StoredLibs
