import Mathlib.Data.Nat.Digits.Lemmas
import Recovery.Memory
import Recovery.Program

/-!
What backup and restore share (bu.cpp, bu.h): the records of a tar stream, the hash that is kept
over the stream, the text of the start and end records, and the list of partitions. libtar is not
part of this repository; it is given by what it writes for a header and by how it reads one.
-/
namespace Recovery.Bu
open Memory List

/-! ## Devices -/

structure Volume where
  fs_type : Bytes
  blk_device : Bytes
  deriving DecidableEq, Repr

/-- A partition of the list; its path is its name behind a slash. -/
structure Part where
  name : Bytes
  vol : Volume
  deriving DecidableEq, Repr
def Part.path (part : Part) : Bytes := 47 :: part.name

def MAX_PART : Nat := 8

/-- `part_add`: none where it returns an error. -/
def part_add (volume_for_path : Bytes → Option Volume) (partlist : List Part) (name : Bytes) : Option (List Part) :=
  match volume_for_path (47 :: name) with
  | none => none
  | some vol =>
    if name ∈ partlist.map Part.name then none
    else if partlist.length < MAX_PART then some (partlist ++ [⟨name, vol⟩]) else none
def part_find (partlist : List Part) (name : Bytes) : Option Part := partlist.find? fun part => part.name == name

/-- The values of `used` that were stored for partitions, the last one first. -/
abbrev Used := List (Bytes × Nat)
/-- `update_progress` divides by `curpart->used`, which is 0 where nothing was stored. -/
def divides (curpart : Option Bytes) (used : Used) : Bool :=
  curpart.all fun name => (used.lookup name).getD 0 != 0

/-! ## Tar streams -/

/-- What the header of a record says; `attrs` stands for the mode, the owner, the times and the
    target of a link. -/
structure Header where
  name : Bytes
  regular : Bool
  size : Nat
  attrs : Bytes
  deriving DecidableEq, Repr

def T_BLOCKSIZE : Nat := 512
def roundUp (size : Nat) : Nat := (size + (T_BLOCKSIZE - 1)) / T_BLOCKSIZE * T_BLOCKSIZE
def Header.dataLength (h : Header) : Nat := if h.regular then roundUp h.size else 0

/-- What `th_read` comes upon. -/
inductive ThRead where
  | header (h : Header)
  | eof
  | failed
  deriving DecidableEq, Repr

/-- libtar: the bytes of a header, and what is read from a stream, with the number of bytes that
    were read. -/
structure Libtar where
  th_write : Header → Bytes
  th_read : Bytes → ThRead × Nat

def padded (data : Bytes) : Bytes := data ++ List.replicate (roundUp data.length - data.length) 0

def Libtar.record (lib : Libtar) (h : Header) (data : Bytes) : Bytes :=
  lib.th_write h ++ if h.regular then padded data else []

/-! Blocks of 512 bytes, as libtar writes them for names of at most 100 bytes: the name, 24 bytes of the mode and the
owner, the size, the time, a sum of all bytes, the kind, the target of a link, and `ustar` before the rest. -/

def field (width : Nat) (text : Bytes) : Bytes := (text ++ List.replicate width 0).take width
/-- A number in octal digits, with blanks in front and behind it. -/
def octal (width n : Nat) : Bytes :=
  let digits := if n = 0 then [48] else (Nat.digits 8 n).reverse.map fun d => UInt8.ofNat (48 + d)
  List.replicate (width - 1 - digits.length) 32 ++ digits ++ [32]
/-- A header block with 8 bytes for its sum; `attrs` are the fields that are not looked at. -/
def headerBlock (h : Header) (sum : Bytes) : Bytes :=
  let attrs := field 383 h.attrs
  let link := (attrs.drop 36).take 100
  field 100 h.name ++ attrs.take 24 ++ octal 12 h.size ++ (attrs.drop 24).take 12 ++ sum ++
    [if h.regular then 48 else if link.all (· == 0) then 53 else 50] ++ link ++ ascii "ustar  " ++ [0] ++ attrs.drop 136
def crc (block : Bytes) : Nat := (block.map UInt8.toNat).sum
def blockWrite (h : Header) : Bytes := headerBlock h (octal 8 (crc (headerBlock h (List.replicate 8 32))))
def octalValue (text : Bytes) : Nat :=
  ((text.dropWhile (· == 32)).takeWhile fun c => 48 ≤ c && c < 56).foldl (fun n c => n * 8 + (c.toNat - 48)) 0
def headerOf (block : Bytes) : Header where
  name := (block.take 100).takeWhile (· != 0)
  regular := block.getD 156 0 == 48
  size := octalValue ((block.drop 124).take 12)
  attrs := (block.drop 100).take 24 ++ (block.drop 136).take 12 ++ (block.drop 157).take 100 ++ block.drop 265
/-- A block with a wrong sum is no header, and neither is one without a name: two of them end an archive. -/
def blockRead (input : Bytes) : ThRead × Nat :=
  let found (block : Bytes) (n : Nat) : ThRead × Nat :=
    if block = [] then (.eof, n)
    else if block.length < T_BLOCKSIZE then (.failed, n + block.length)
    else if block.head? = some 0 then (.eof, n + T_BLOCKSIZE)
    else if octalValue ((block.drop 148).take 8) = crc (block.take 148 ++ List.replicate 8 32 ++ block.drop 156) then
      (.header (headerOf block), n + T_BLOCKSIZE)
    else (.failed, n + T_BLOCKSIZE)
  if T_BLOCKSIZE ≤ input.length ∧ input.head? = some 0 then found ((input.drop T_BLOCKSIZE).take T_BLOCKSIZE) T_BLOCKSIZE
  else found (input.take T_BLOCKSIZE) 0
def blockTar : Libtar := ⟨blockWrite, blockRead⟩
def noAttrs : Bytes := List.replicate 383 0
example : blockRead (blockWrite ⟨ascii "boot", true, 1000, noAttrs⟩) = (.header ⟨ascii "boot", true, 1000, noAttrs⟩, 512) := by
  decide +kernel

/-! ## The hash of a stream -/

/-- The hash functions, and the number of bits of `size_t`. -/
structure Hashing where
  sha1 : Bytes → Bytes
  md5 : Bytes → Bytes
  bits : Nat

def lower (c : UInt8) : UInt8 := if 65 ≤ c ∧ c ≤ 90 then c + 32 else c
/-- Whether `strcasecmp` finds the strings equal. -/
def sameText (a b : Bytes) : Bool := a.map lower == b.map lower

def hexDigits : Bytes := ascii "0123456789abcdef"
def hex (digest : Bytes) : Bytes :=
  digest.flatMap fun b => [hexDigits.getD (b.toNat / 16) 0, hexDigits.getD (b.toNat % 16) 0]
/-- The digest that a hash name stands for; everything but SHA-1 is MD5. -/
def Hashing.hexdigest (hashing : Hashing) (hash_name : Option Bytes) (data : Bytes) : Bytes :=
  if hash_name.any (sameText · (ascii "sha1")) then hex (hashing.sha1 data) else hex (hashing.md5 data)
structure Hashing.Lawful (hashing : Hashing) : Prop where
  sha1_length : ∀ data, (hashing.sha1 data).length = 20
  md5_length : ∀ data, (hashing.md5 data).length = 16
def hexLength (hash_name : Option Bytes) : Nat := if hash_name.any (sameText · (ascii "sha1")) then 40 else 32
theorem hex_length (digest : Bytes) : (hex digest).length = 2 * digest.length := by
  simp [hex,length_flatMap,Nat.mul_comm]
theorem hexdigest_length {hashing : Hashing} (lawful : hashing.Lawful) (hash_name : Option Bytes) (data : Bytes) :
    (hashing.hexdigest hash_name data).length = hexLength hash_name := by
  unfold Hashing.hexdigest hexLength
  split
  · rw [hex_length,lawful.sha1_length]
  · rw [hex_length,lawful.md5_length]
/-- Hash functions of the right lengths, on a machine of 32 bits. -/
def plainHashing : Hashing := ⟨fun data => leBytes 20 data.length, fun data => leBytes 16 data.length, 32⟩
theorem plainHashing_lawful : plainHashing.Lawful := ⟨fun _ => leBytes_length ..,fun _ => leBytes_length ..⟩
/-- `hash_datalen`, which is counted in a `size_t`. -/
def Hashing.datalen (hashing : Hashing) (data : Bytes) : Nat := data.length % 2 ^ hashing.bits

/-! ## The text of records -/

def PROPERTY_KEY_MAX : Nat := 32
def PROPERTY_VALUE_MAX : Nat := 92
def PROP_LINE_LEN : Nat := PROPERTY_KEY_MAX + 1 + PROPERTY_VALUE_MAX + 1 + 1
def textMax : Nat := PROP_LINE_LEN * 10
def HASH_MAX_STRING_LENGTH : Nat := 41

def splitLines : Bytes → Bytes → List Bytes
  | _, [] => []
  | line, c :: rest => if c = 10 then line :: splitLines [] rest else splitLines (line ++ [c]) rest
/-- The lines of a text that end in a newline; the text ends at a NUL. -/
def textLines (text : Bytes) : List Bytes := splitLines [] (text.takeWhile (· != 0))
def keyValue (line : Bytes) : Option (Bytes × Bytes) :=
  if 61 ∈ line then some (line.takeWhile (· != 61), (line.dropWhile (· != 61)).tail) else none
def keyValues (text : Bytes) : List (Bytes × Bytes) := (textLines text).filterMap keyValue
/-- The value of a key; a later line counts more than an earlier one. -/
def lastValue (key text : Bytes) : Option Bytes := (keyValues text).reverse.lookup key

def decimal (n : Nat) : Bytes :=
  if n = 0 then [48] else (Nat.digits 10 n).reverse.map fun d => UInt8.ofNat (48 + d)

def isBlank (c : UInt8) : Bool := c == 32 || (9 ≤ c && c ≤ 13)
def digitOf (c : UInt8) : Nat :=
  if 48 ≤ c ∧ c ≤ 57 then c.toNat - 48
  else if 97 ≤ c ∧ c ≤ 102 then c.toNat - 87
  else if 65 ≤ c ∧ c ≤ 70 then c.toNat - 55
  else 16
def number (base : Nat) (text : Bytes) : Nat :=
  (text.takeWhile fun c => digitOf c < base).foldl (fun n c => n * base + digitOf c) 0
/-- The base that the start of a number tells, and the digits. -/
def baseOf (text : Bytes) : Nat × Bytes :=
  match text with
  | 48 :: 120 :: rest => (16, rest)
  | 48 :: 88 :: rest => (16, rest)
  | 48 :: rest => (8, rest)
  | _ => (10, text)
def signOf (text : Bytes) : Bool × Bytes :=
  match text with
  | 45 :: rest => (true, rest)
  | 43 :: rest => (false, rest)
  | _ => (false, text)
/-- `strtoul` with base 0, for an `unsigned long` of the given width. -/
def strtoul (bits : Nat) (text : Bytes) : Nat :=
  let (negative, body) := signOf (text.dropWhile isBlank)
  let (base, digits) := baseOf body
  let value := number base digits
  if 2 ^ bits ≤ value then 2 ^ bits - 1 else if negative then (2 ^ bits - value) % 2 ^ bits else value

/-- What a backup or a restore starts from and does not change. -/
structure Device where
  lib : Libtar
  hashing : Hashing
  volume_for_path : Bytes → Option Volume
  /-- The property `ro.build.product`. -/
  product : Bytes

end Recovery.Bu
