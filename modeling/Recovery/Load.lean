import Mathlib.Data.List.Sort
import Recovery.Libs
import Recovery.Retouch
import Recovery.Storage

/-!
The loading half of `applypatch.c`: SHA-1 texts, the names of partitions, and the
functions that read a file or a partition into memory.
-/
namespace Recovery.Load
open Memory Retouch

variable (L : Libs)

/-! ## Texts -/

def hexDigit (c : Char) : Option Nat :=
  if '0' ≤ c ∧ c ≤ '9' then some (c.toNat - '0'.toNat)
  else if 'a' ≤ c ∧ c ≤ 'f' then some (c.toNat - 'a'.toNat + 10)
  else if 'A' ≤ c ∧ c ≤ 'F' then some (c.toNat - 'A'.toNat + 10)
  else none

/-- The bytes written as pairs of digits, and what follows them. -/
def hexBytes : Nat → Path → Option (Bytes × Path)
  | 0, rest => some ([], rest)
  | n + 1, high :: low :: rest => do
    let h ← hexDigit high
    let l ← hexDigit low
    let (bytes, rest) ← hexBytes n rest
    some (UInt8.ofNat (h <<< 4 ||| l) :: bytes, rest)
  | _ + 1, _ => none

/-- `ParseSha1`: forty digits and nothing after them. -/
def parseSha1 (str : Path) : Option Bytes :=
  match hexBytes 20 str with
  | some (digest, []) => some digest
  | _ => none

/-- `FindMatchingPatch`: the index of the first text that reads as the hash. -/
def findMatchingPatch (sha1 : Bytes) (sums : List Path) : Option Nat :=
  sums.findIdx? fun str => parseSha1 str = some sha1

/-- `strtol` with base 10: blanks, a sign, digits; out of range is cut to the
    ends of a long. -/
def strtol (str : Path) : Int :=
  let isSpace (c : Char) : Bool := c = ' ' ∨ (9 ≤ c.toNat ∧ c.toNat ≤ 13)
  let str := str.dropWhile isSpace
  let (negative, str) := match str with
    | '-' :: rest => (true, rest)
    | '+' :: rest => (false, rest)
    | _ => (false, str)
  let value : Int := ((str.takeWhile Char.isDigit).foldl (fun n c => n * 10 + (c.toNat - '0'.toNat)) 0 : Nat)
  if negative then max (-value) (-(2 ^ 63)) else min value (2 ^ 63 - 1)

def tokens (name : Path) : List Path := (name.splitOn ':').filter (· ≠ [])

def isPartition (name : Path) : Bool := "MTD:".toList.isPrefixOf name || "EMMC:".toList.isPrefixOf name

/-! ## Contents -/

/-- `FileContents`: data that is there has the recorded size. -/
structure FileContents where
  sha1 : Bytes
  data : Option Bytes
  size : Int
  stat : Stat
  sized : ∀ d, data = some d → size = d.length

def FileContents.freed (file : FileContents) : FileContents := { file with data := none, sized := by simp }

/-- What a load returns: its code and the contents; none when it never returns. -/
abbrev Loaded := Option (Int × FileContents)

/-- The pairs of a size and a SHA-1 text in the name of a partition. A missing
    size is used as a pointer at once, a missing text only when it is parsed. -/
def readPairs : Nat → List Path → Ret (List (Nat × Option Path))
  | 0, _ => .ok []
  | _ + 1, [] => .stuck
  | n + 1, sizeStr :: rest =>
    let size := unsigned 64 (strtol sizeStr)
    if size = 0 then .err (-1)
    else do
      let pairs ← readPairs n rest.tail
      .ok ((size, rest.head?) :: pairs)

/-- How the search for a matching prefix of a partition ends. -/
inductive PrefixMatch where
  | found (size : Nat)
  | failed (size : Nat)
  | stuck
  deriving DecidableEq, Repr

/-- The loop over the pairs in order of size; `size` bytes were read so far. -/
def matchPrefix (contents : Bytes) : List (Nat × Option Path) → Nat → PrefixMatch
  | [], size => .failed size
  | (next, sha1sum) :: rest, size =>
    if contents.length < next then .failed size
    else match sha1sum with
      | none => .stuck
      | some str => match parseSha1 str with
        | none => .failed next
        | some parsedSha => if L.sha1 (contents.take next) = parsedSha then .found next else matchPrefix contents rest next

/-- The smallest size first; equal sizes keep the order of the name. -/
def sortPairs (pairs : List (Nat × Option Path)) : List (Nat × Option Path) :=
  pairs.insertionSort fun a b => a.1 ≤ b.1

/-- Where a partition name points: a device file or an MTD partition. -/
inductive Partition where
  | mtd (name : Path)
  | emmc (device : Path)
  deriving DecidableEq, Repr

/-- What can be read from a partition, nothing when a read fails; none when it
    cannot be opened. -/
def openPartition (s : Storage) : Partition → Option Bytes
  | .mtd name => do
    let mtd ← s.mtd name
    if mtd.opens then some mtd.data else none
  | .emmc device => do
    let node ← s.files device
    match node.fault with
    | none => some node.data
    | some .read => some []
    | some _ => none

/-- The partition that the first two tokens of a name stand for; an error for a
    bad type, stuck when the second token is missing. -/
def partitionOf : List Path → Ret Partition
  | [] => .stuck
  | magic :: rest =>
    if magic = "MTD".toList then
      match rest with
      | [] => .stuck
      | name :: _ => .ok (.mtd name)
    else if magic = "EMMC".toList then
      match rest with
      | [] => .stuck
      | device :: _ => .ok (.emmc device)
    else .err (-1)

/-- The number of (size, sha1) pairs that the colons of a name announce. -/
def pairCount (name : Path) : Nat := (name.count ':' - 1) / 2

/-- What a search leaves in the contents. The stat of a partition is made up. -/
def prefixContents (contents : Bytes) (file : FileContents) : PrefixMatch → Loaded
  | .stuck => none
  | .failed size => some (-1, { file.freed with size, sized := by simp [FileContents.freed] })
  | .found size => some (0, ⟨L.sha1 (contents.take size), some (contents.take size), (contents.take size).length,
      ⟨420, 0, 0⟩, by simp⟩)

/-- `LoadPartitionContents`. A name with a bad number of colons is only reported. -/
def loadPartitionContents (s : Storage) (filename : Path) (file : FileContents) : Loaded :=
  let fields := tokens filename
  match partitionOf fields with
  | .stuck => none
  | .err code => some (code, file)
  | .ok partition => match readPairs (pairCount filename) (fields.drop 2) with
    | .stuck => none
    | .err code => some (code, file)
    | .ok pairs => match openPartition s partition with
      | none => some (-1, file)
      | some contents =>
        -- the largest size is looked up before the loop
        if pairs = [] then none else prefixContents L contents file (matchPrefix L contents (sortPairs pairs) 0)

def enoent : Int := 2

def maskedContents (size : Nat) (stat : Stat) (file : FileContents) : Option Masked → Loaded
  | none => none
  | some masked =>
    if masked.code = .matched then
      some (0, ⟨L.sha1 masked.binary, some masked.binary, masked.binary.length, stat, by simp⟩)
    else some (-1, ⟨file.sha1, none, size, stat, by simp⟩)

/-- Data read from a file, with the retouched words masked in place. -/
def maskContents (data : Bytes) (stat : Stat) (file : FileContents) : Loaded :=
  maskedContents L data.length stat file (retouchMaskData data (wrap 32 data.length) (some 0))

/-- `st_size`: the length of a regular file, 0 for a device. -/
def Node.size (node : Node) : Nat := if node.regular then node.data.length else 0

/-- `LoadFileContents` with `RETOUCH_DO_MASK`, as every caller here asks for. -/
def loadFileContents (s : Storage) (filename : Path) (file : FileContents) : Loaded :=
  let file := file.freed
  if isPartition filename then loadPartitionContents L s filename file
  else match s.files filename with
    | none => some (-enoent, file)
    | some node => match node.fault with
      | some .stat => some (-1, file)
      | some _ => some (-1, ⟨file.sha1, none, Node.size node, node.stat, by simp⟩)
      | none => maskContents L (node.data.take (Node.size node)) node.stat file

end Recovery.Load
