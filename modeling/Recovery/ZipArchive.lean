import Recovery.Minzip
import Recovery.Hash
import Recovery.Tracing

/-!
`parseZipArchive` and `mzFindZipEntry`. The archive is a map in memory; pointers, `size_t`
and `long` have the width of the ABI, and every address that is read is noted.
-/
namespace Recovery.ZipArchive
open Memory Numbers Minzip Hash Tracing

/-! ## The machine -/

/-- The width of pointers, `size_t` and `long`, and whether `char` is signed. -/
structure Abi where
  bits : Nat
  known : bits = 32 ∨ bits = 64
  charSigned : Bool
  deriving DecidableEq

def ilp32 : Abi := ⟨32, .inl rfl, false⟩
def lp64 : Abi := ⟨64, .inr rfl, false⟩

def Abi.ptr (abi : Abi) (n : Nat) : Nat := n % 2 ^ abi.bits
def Abi.long (abi : Abi) (n : Nat) : Int := wrap abi.bits n
def Abi.char (abi : Abi) (b : Nat) : Int := if abi.charSigned then wrap 8 b else b

/-- `safe_add` for pointers and for `long`s: it tells an overflow. -/
structure SafeIop (abi : Abi) where
  addPtr : Nat → Nat → Option Nat
  addLong : Int → Int → Bool
  addPtr_eq : ∀ a b, addPtr a b = if a + b < 2 ^ abi.bits then some (a + b) else none
  addLong_eq : ∀ a b, addLong a b = decide (-(2 ^ (abi.bits - 1)) ≤ a + b ∧ a + b < 2 ^ (abi.bits - 1))

/-- How a parser that does not return ends: it bails out, the process aborts, or it never
    ends. -/
inductive Stop where
  | bail
  | abort
  | hang
  deriving DecidableEq, Repr

abbrev Parser := Traced Nat Stop

abbrev Mem := Nat → UInt8

def bail {α : Type} : Parser α := Traced.stop .bail
/-- What the hash table does is done by the parser. -/
def ofRet {α : Type} : Ret α → Parser α
  | .ok a => pure a
  | .err _ => Traced.stop .abort
  | .stuck => Traced.stop .hang

section
variable (abi : Abi) (mem : Mem)

def load (a : Nat) : Parser Nat := do
  Traced.note (abi.ptr a)
  pure (mem (abi.ptr a)).toNat
def load2LE (pSrc : Nat) : Parser Nat := do
  let b0 ← load abi mem pSrc
  let b1 ← load abi mem (pSrc + 1)
  pure (b0 + (b1 <<< 8))
def load4LE (pSrc : Nat) : Parser Nat := do
  let b0 ← load abi mem pSrc
  let b1 ← load abi mem (pSrc + 1)
  let b2 ← load abi mem (pSrc + 2)
  let b3 ← load abi mem (pSrc + 3)
  pure (b0 + (b1 <<< 8) + (b2 <<< 16) + (b3 <<< 24))
def strncmp (s1 s2 : Nat) : Nat → Parser Int
  | 0 => pure 0
  | n + 1 => do
    let c1 ← load abi mem s1
    let c2 ← load abi mem s2
    if c1 ≠ c2 then pure ((c1 : Int) - c2)
    else if c1 = 0 then pure 0
    else strncmp (s1 + 1) (s2 + 1) n

end

/-! ## Entries -/

def CENSIG : Nat := 0x02014b50
def CENHDR : Nat := 46
def CENVEM : Nat := 4
def CENHOW : Nat := 10
def CENTIM : Nat := 12
def CENCRC : Nat := 16
def CENSIZ : Nat := 20
def CENLEN : Nat := 24
def CENNAM : Nat := 28
def CENEXT : Nat := 30
def CENCOM : Nat := 32
def CENATX : Nat := 38
def CENOFF : Nat := 42
def LOCHDR : Nat := 30
def LOCNAM : Nat := 26
def LOCEXT : Nat := 28
def CENVEM_UNIX : Nat := 3 <<< 8
def PATH_MAX : Nat := 4096

structure ZipEntry where
  fileNameLen : Nat
  fileName : Nat
  offset : Int
  compLen : Int
  uncompLen : Int
  compression : Nat
  modTime : Int
  crc32 : Int
  versionMadeBy : Nat
  externalFileAttributes : Int
  deriving DecidableEq, Repr

/-- `fileName` is the address of the name, which is not terminated. -/
def ZipEntry.name (abi : Abi) (mem : Mem) (e : ZipEntry) : Bytes :=
  (List.range e.fileNameLen).map fun i => mem (abi.ptr (e.fileName + i))

structure MemMapping where
  addr : Nat
  length : Nat
  deriving DecidableEq, Repr

def MemMapping.limit (map : MemMapping) (abi : Abi) : Nat := abi.ptr (map.addr + map.length)

section
variable (abi : Abi) (mem : Mem)

def validChars (fileName : Nat) : Nat → Parser Bool
  | 0 => pure true
  | n + 1 => do
    let c := abi.char (← load abi mem fileName)
    if c < 32 ∨ c ≥ 127 then pure false else validChars (fileName + 1) n
def validFilename (fileName fileNameLen : Nat) : Parser Bool :=
  if fileNameLen ≥ PATH_MAX then pure false else validChars abi mem fileName fileNameLen

def noEntry : ZipEntry := ⟨0, 0, 0, 0, 0, 0, 0, 0, 0, 0⟩

/-- The order of a listed entry and a new name. -/
def compareNames (entry : ZipEntry) (fileName fileNameLen : Nat) : Parser Int := do
  let diffLen := if entry.fileNameLen < fileNameLen then entry.fileNameLen else fileNameLen
  let diff ← strncmp abi mem entry.fileName fileName diffLen
  if diff = 0 then pure (wrap 32 ((entry.fileNameLen : Int) - fileNameLen)) else pure diff

/-- The binary search for the place of a new entry: the value of `high` at its end. A step
    for each entry is enough. -/
def searchEntry (pEntries : List ZipEntry) (fileName fileNameLen : Nat) : Nat → Int → Int → Parser Int
  | 0, _, high => pure high
  | steps + 1, low, high =>
    if low ≤ high then do
      let mid := low + (high - low) / 2
      let diff ← compareNames abi mem (pEntries.getD mid.toNat noEntry) fileName fileNameLen
      if diff < 0 then searchEntry pEntries fileName fileNameLen steps (mid + 1) high
      else if diff > 0 then searchEntry pEntries fileName fileNameLen steps low (mid - 1)
      else pure mid
    else pure high

/-- Where entry number `i` goes. -/
def targetFor (pEntries : List ZipEntry) (i fileName fileNameLen : Nat) : Parser Nat :=
  if i > 0 then do
    let high ← searchEntry abi mem pEntries fileName fileNameLen i 0 ((i : Int) - 1)
    let target := unsigned 32 (high + 1)
    if target ≤ i then pure target else Traced.stop .abort
  else pure 0

variable (S : SafeIop abi) (map : MemMapping)

/-- The part of an iteration after the entry has its place: the other fields. -/
def readEntry (ptr fileName fileNameLen localHdrOffset : Nat) : Parser ZipEntry := do
  let compLen := abi.long (← load4LE abi mem (ptr + CENSIZ))
  let uncompLen := abi.long (← load4LE abi mem (ptr + CENLEN))
  let compression ← load2LE abi mem (ptr + CENHOW)
  let modTime := abi.long (← load4LE abi mem (ptr + CENTIM))
  let crc32 := abi.long (← load4LE abi mem (ptr + CENCRC))
  let versionMadeBy ← load2LE abi mem (ptr + CENVEM)
  if versionMadeBy &&& 0xff00 ≠ 0 ∧ versionMadeBy &&& 0xff00 ≠ CENVEM_UNIX then bail
  else do
    let externalFileAttributes := abi.long (← load4LE abi mem (ptr + CENATX))
    match S.addPtr map.addr localHdrOffset with
    | none => bail
    | some localHdr =>
      if abi.ptr (localHdr + LOCHDR) > map.limit abi then bail
      else if (← load4LE abi mem localHdr) ≠ LOCSIG then bail
      else do
        let nameLen ← load2LE abi mem (localHdr + LOCNAM)
        let extraLen ← load2LE abi mem (localHdr + LOCEXT)
        let offset := abi.long (unsigned 32 (localHdrOffset + LOCHDR + nameLen + extraLen : Nat))
        if ¬ S.addLong offset compLen then bail
        else if abi.ptr (unsigned abi.bits offset + unsigned abi.bits compLen) > map.length then bail
        else pure ⟨fileNameLen, fileName, offset, compLen, uncompLen, compression, modTime, crc32, versionMadeBy,
          externalFileAttributes⟩

/-- One record of the central directory: the entries with the new one among them, and
    the pointer to the next record. -/
def parseRecord (i ptr : Nat) (pEntries : List ZipEntry) : Parser (Nat × List ZipEntry) :=
  if abi.ptr (ptr + CENHDR) > map.limit abi then bail
  else do
    if (← load4LE abi mem ptr) ≠ CENSIG then bail
    else do
      let localHdrOffset ← load4LE abi mem (ptr + CENOFF)
      let fileNameLen ← load2LE abi mem (ptr + CENNAM)
      let extraLen ← load2LE abi mem (ptr + CENEXT)
      let commentLen ← load2LE abi mem (ptr + CENCOM)
      let fileName := abi.ptr (ptr + CENHDR)
      if abi.ptr (fileName + fileNameLen) > map.limit abi then bail
      else if ¬ (← validFilename abi mem fileName fileNameLen) then bail
      else do
        let target ← targetFor abi mem pEntries i fileName fileNameLen
        let pEntry ← readEntry abi mem S map ptr fileName fileNameLen localHdrOffset
        pure (abi.ptr (ptr + (CENHDR + fileNameLen + extraLen + commentLen)), pEntries.insertIdx target pEntry)
def parseRecords : Nat → Nat → Nat → List ZipEntry → Parser (List ZipEntry)
  | 0, _, _, pEntries => pure pEntries
  | left + 1, i, ptr, pEntries => do
    let (ptr, pEntries) ← parseRecord abi mem S map i ptr pEntries
    parseRecords left (i + 1) ptr pEntries

/-! ## The archive -/

/-- Looks for the end-of-central-directory record below an address, down to the start of
    the map. The map does not start at address zero, so that the pointer stops short of it. -/
def scanBack (addr : Nat) : Nat → Parser Nat
  | 0 => bail
  | k + 1 => do
    if (← load abi mem (addr + k)) = ENDSIG &&& 0xff then
      if (← load4LE abi mem (addr + k)) = ENDSIG then pure (addr + k) else scanBack addr k
    else scanBack addr k

/-- The number of entries and the offset of the central directory. -/
def findDirectory : Parser (Nat × Nat) := do
  let val ← load4LE abi mem map.addr
  if val = ENDSIG then bail
  else if val ≠ LOCSIG then bail
  else do
    let ptr ← scanBack abi mem map.addr (map.length + 1 - ENDHDR)
    let numEntries ← load2LE abi mem (ptr + ENDSUB)
    let cdOffset ← load4LE abi mem (ptr + ENDOFF)
    if numEntries = 0 ∨ cdOffset ≥ map.length then bail else pure (numEntries, cdOffset)

def loadName (fileName : Nat) : Nat → Parser Bytes
  | 0 => pure []
  | n + 1 => do
    let b ← load abi mem fileName
    let rest ← loadName (fileName + 1) n
    pure (UInt8.ofNat b :: rest)

def computeHash (name : Bytes) : Nat :=
  name.foldl (fun hash c => unsigned 32 (hash * 31 + abi.char c.toNat)) 2

def memcmp : Bytes → Bytes → Int
  | a :: as, b :: bs => if a ≠ b then (a.toNat : Int) - b.toNat else memcmp as bs
  | _, _ => 0
def hashcmpZipEntry (entry1 entry2 : ZipEntry) : Int :=
  if entry1.fileNameLen ≠ entry2.fileNameLen then wrap 32 ((entry1.fileNameLen : Int) - entry2.fileNameLen)
  else memcmp (entry1.name abi mem) (entry2.name abi mem)
def hashcmpZipName (entry : ZipEntry) (name : Bytes) : Int :=
  let nameLen := unsigned 32 name.length
  if entry.fileNameLen ≠ nameLen then wrap 32 ((entry.fileNameLen : Int) - nameLen)
  else memcmp (entry.name abi mem) (name.take nameLen)

structure Archive where
  numEntries : Nat
  pEntries : List ZipEntry
  pHash : HashTable Nat

/-- The table keeps pointers into the entries, which are numbers of entries here. The
    comparisons read no bytes but those of names whose hash was computed. -/
def addEntryToHashTable (calloc : Nat → Bool) (pEntries : List ZipEntry) (pHash : HashTable Nat) (i : Nat) :
    Parser (HashTable Nat) := do
  let entry (j : Nat) := pEntries.getD j noEntry
  let name ← loadName abi mem (entry i).fileName (entry i).fileNameLen
  let (_, pHash) ← ofRet (mzHashTableLookup calloc pHash (computeHash abi name) i
    (fun j k => hashcmpZipEntry abi mem (entry j) (entry k)) (some i))
  pure pHash
def addEntries (calloc : Nat → Bool) (pEntries : List ZipEntry) : List Nat → HashTable Nat → Parser (HashTable Nat)
  | [], pHash => pure pHash
  | i :: rest, pHash => do
    let pHash ← addEntryToHashTable abi mem calloc pEntries pHash i
    addEntries calloc pEntries rest pHash

/-- The data structures for the entries, and what the records put into them. `room` tells
    whether the entries can be allocated. -/
def readEntries (room : Bool) (calloc : Nat → Bool) (numEntries cdOffset : Nat) : Parser Archive :=
  match room, mzHashTableCreate calloc (mzHashSize numEntries) false with
  | true, some pHash => do
    let pEntries ← parseRecords abi mem S map numEntries 0 (map.addr + cdOffset) []
    let pHash ← addEntries abi mem calloc pEntries (List.range numEntries) pHash
    pure ⟨numEntries, pEntries, pHash⟩
  | _, _ => bail
def parseZipArchive (room : Bool) (calloc : Nat → Bool) : Parser Archive := do
  let (numEntries, cdOffset) ← findDirectory abi mem map
  readEntries abi mem S map room calloc numEntries cdOffset

/-- The pointer is the number of an entry. -/
def mzFindZipEntry (calloc : Nat → Bool) (archive : Archive) (entryName : Bytes) : Ret (Option Nat) := do
  let (found, _) ← mzHashTableLookup calloc archive.pHash (computeHash abi entryName) entryName
    (fun j name => hashcmpZipName abi mem (archive.pEntries.getD j noEntry) name) none
  pure found

end

end Recovery.ZipArchive
