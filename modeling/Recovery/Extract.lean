import Recovery.Program
import Recovery.DirUtil
import Recovery.ZipArchive

/-!
`mzExtractRecursive` and what it calls. The answers to the calls made for each entry are
given: those of the file system, of `malloc`, and of zlib. A path, a link target and the
two arguments are the texts of C strings, without the terminator.
-/
namespace Recovery.Extract
open Memory Numbers Program Tracing Tracing.Traced DirUtil
open ZipArchive

/-! ## The contents of an entry -/

def STORED : Nat := 0
def DEFLATED : Nat := 8
def EINTR : Int := 4
def Z_OK : Int := 0
def Z_STREAM_END : Int := 1
def bufferSize : Nat := 32 * 1024

/-- zlib: `inflateInit2`, which may fail, and `inflate` on the input at hand and the room for
    output, which also depends on the code that it returns. -/
structure Inflater where
  State : Type
  init : Option State
  inflate : State → Bytes → Nat → Int → State × Nat × Bytes
  consumed_le : ∀ z input room zerr, (inflate z input room zerr).2.1 ≤ input.length
  produced_le : ∀ z input room zerr, (inflate z input room zerr).2.2.length ≤ room

section
variable {σ : Type} (abi : Abi) (file : Bytes)

/-- `read` at a position: its result, for the answer of the kernel, and the bytes. -/
def readAt (pos count : Nat) (answer : Int) : Int × Bytes :=
  if answer < 0 then (answer, [])
  else
    let data := (file.drop pos).take (min answer.toNat count)
    (data.length, data)

def processStoredEntry (pEntry : ZipEntry) (pos : Nat) (processFunction : Bytes → Prog σ Int Bool) : Prog σ Int Bool :=
  Prog.iterate (fun (bytesLeft, pos) =>
    if bytesLeft > 0 then do
      let count := if bytesLeft > bufferSize then bufferSize else bytesLeft
      let (n, buf) := readAt file pos count (← Prog.ask)
      if n < 0 ∨ n ≠ count then pure (.inr false)
      else if ← processFunction buf then pure (.inl (bytesLeft - count, pos + count))
      else pure (.inr false)
    else pure (.inr true)) (unsigned abi.bits pEntry.compLen, pos)

/-- The variables of the loop of `processDeflatedEntry`; `next_in` are the bytes that are
    still to be consumed and `procBuf` those that are still to be processed. -/
structure Inflating (Z : Inflater) where
  zstream : Z.State
  compRemaining : Int
  pos : Nat
  next_in : Bytes
  procBuf : Bytes
  total_out : Nat

/-- Reads when there is no input left. A size that is negative would be a huge one for
    `read`, which then writes past the buffer. -/
def refill {Z : Inflater} (l : Inflating Z) : Prog σ Int (Option (Inflating Z)) :=
  if l.next_in.length = 0 then do
    let getSize := if l.compRemaining > bufferSize then (bufferSize : Int) else l.compRemaining
    if getSize < 0 then Prog.stuck
    else do
      let (cc, readBuf) := readAt file l.pos getSize.toNat (← Prog.ask)
      if cc ≠ getSize then pure none
      else pure (some { l with
        compRemaining := l.compRemaining - getSize, pos := l.pos + getSize.toNat, next_in := readBuf })
  else pure (some l)

def inflated {Z : Inflater} (l : Inflating Z) (zerr : Int) : Inflating Z :=
  let r := Z.inflate l.zstream l.next_in (bufferSize - l.procBuf.length) zerr
  { l with zstream := r.1, next_in := l.next_in.drop r.2.1, procBuf := l.procBuf ++ r.2.2,
           total_out := abi.ptr (l.total_out + r.2.2.length) }

/-- The loop returns `total_out`, or -1. -/
def inflateLoop {Z : Inflater} (processFunction : Bytes → Prog σ Int Bool) : Inflating Z → Prog σ Int Int :=
  Prog.iterate fun l => do
    match ← refill file l with
    | none => pure (.inr (-1))
    | some l => do
      let zerr ← Prog.ask
      let l := inflated abi l zerr
      if zerr ≠ Z_OK ∧ zerr ≠ Z_STREAM_END then pure (.inr (-1))
      else if l.procBuf.length = bufferSize ∨ (zerr = Z_STREAM_END ∧ l.procBuf.length ≠ 0) then do
        if ← processFunction l.procBuf then
          pure (if zerr = Z_OK then .inl { l with procBuf := [] } else .inr (abi.long l.total_out))
        else pure (.inr (-1))
      else pure (if zerr = Z_OK then .inl l else .inr (abi.long l.total_out))

def processDeflatedEntry (Z : Inflater) (pEntry : ZipEntry) (pos : Nat) (processFunction : Bytes → Prog σ Int Bool) :
    Prog σ Int Bool := do
  let result ← match Z.init with
    | none => pure (-1)
    | some zstream => inflateLoop abi file processFunction ⟨zstream, pEntry.compLen, pos, [], [], 0⟩
  pure (decide (result = pEntry.uncompLen))

/-- `lseek` refuses a negative offset, and the file stays where it was. -/
def mzProcessZipEntryContents (Z : Inflater) (oldOff : Nat) (pEntry : ZipEntry)
    (processFunction : Bytes → Prog σ Int Bool) : Prog σ Int Bool :=
  let pos := if pEntry.offset < 0 then oldOff else pEntry.offset.toNat
  if pEntry.compression = STORED then processStoredEntry abi file pEntry pos processFunction
  else if pEntry.compression = DEFLATED then processDeflatedEntry abi file Z pEntry pos processFunction
  else pure false

/-- The buffer as far as it was filled, and the room in it. -/
structure CopyProcessArgs where
  buf : Bytes
  bufLen : Int

def copyProcessFunction (data : Bytes) : Prog CopyProcessArgs Int Bool := do
  let args ← Prog.get
  if data.length ≤ args.bufLen then do
    Prog.modify fun _ => ⟨args.buf ++ data, args.bufLen - data.length⟩
    pure true
  else pure false

/-- The state is the bytes that were written. An answer that is not positive is an error,
    its number negated; a result of 0 with an old `errno` is such an answer, too. -/
def writeProcessFunction (data : Bytes) : Prog Bytes Int Bool :=
  Prog.iterate (fun (soFar : Nat) => do
    let n := min (← Prog.ask) ((data.length : Int) - soFar)
    if n ≤ 0 then pure (if n ≠ -EINTR then .inr false else .inl soFar)
    else do
      Prog.modify (· ++ (data.drop soFar).take n.toNat)
      let soFar := soFar + n.toNat
      pure (if soFar = data.length then .inr true else if soFar > data.length then .inr false else .inl soFar)) 0

def mzReadZipEntry (Z : Inflater) (oldOff : Nat) (pEntry : ZipEntry) : Prog CopyProcessArgs Int Bool :=
  mzProcessZipEntryContents abi file Z oldOff pEntry copyProcessFunction
def mzExtractZipEntryToFile (Z : Inflater) (oldOff : Nat) (pEntry : ZipEntry) : Prog Bytes Int Bool :=
  mzProcessZipEntryContents abi file Z oldOff pEntry writeProcessFunction

/-- The buffer as far as it was written, and what is left of the length that the entry gives. -/
structure BufferExtractCookie where
  buffer : Bytes
  len : Int

def bufferProcessFunction (data : Bytes) : Prog BufferExtractCookie Int Bool := do
  Prog.modify fun bec => ⟨bec.buffer ++ data, wrap abi.bits (bec.len - data.length)⟩
  pure true

def mzExtractZipEntryToBuffer (Z : Inflater) (oldOff : Nat) (pEntry : ZipEntry) : Prog BufferExtractCookie Int Bool := do
  Prog.modify fun bec => { bec with len := pEntry.uncompLen }
  let ret ← mzProcessZipEntryContents abi file Z oldOff pEntry (bufferProcessFunction abi)
  let bec ← Prog.get
  pure (ret && bec.len = 0)

end

/-! ## Paths -/

/-- How the loop of `mzExtractRecursive` is left early: with `ok` set to false, with only the
    inner `ok` set to false, or by a call that never returns or is undefined. -/
inductive Break where
  | failed
  | shadowed
  | stuck
  deriving DecidableEq, Repr

structure MzPathHelper where
  targetDir : Bytes
  buf : Option Bytes
  targetDirLen : Int
  zipDirLen : Int
  bufLen : Int

/-- Bytes copied into a buffer, which has to have them inside. -/
def memcpy (buf : Bytes) (dest : Int) (data : Bytes) : Except Break Bytes :=
  if 0 ≤ dest ∧ dest + data.length ≤ buf.length then
    pure (buf.take dest.toNat ++ data ++ buf.drop (dest.toNat + data.length))
  else .error .stuck

/-- The buffer gets `len` bytes, the new ones from `fresh`. -/
def grow (fresh : Nat → UInt8) (buf : Option Bytes) (len : Nat) : Bytes :=
  (List.range len).map fun i => (buf.getD []).getD i (fresh i)

def cString (buf : Bytes) : Bytes := buf.takeWhile (· ≠ 0)

/-- `realloc` is told to get memory or not; it gets none for a negative number, which is a
    huge `size_t`. -/
def growPath (realloc : Bool) (fresh : Nat → UInt8) (helper : MzPathHelper) (needLen : Int) : Except Break MzPathHelper :=
  if needLen > helper.bufLen then
    let needLen := wrap 32 (needLen * 2)
    if realloc ∧ 0 ≤ needLen then
      pure { helper with buf := some (grow fresh helper.buf needLen.toNat), bufLen := needLen }
    else .error .failed
  else pure helper
def startPath (firstTime : Bool) (helper : MzPathHelper) (buf : Bytes) : Except Break (MzPathHelper × Bytes) :=
  if firstTime = false then pure (helper, buf)
  else if helper.targetDirLen < 0 then .error .stuck
  else do
    let buf ← memcpy buf 0 (helper.targetDir.take helper.targetDirLen.toNat)
    if helper.targetDirLen = 0 ∨ buf.getD (helper.targetDirLen.toNat - 1) 0 ≠ slash then do
      let buf ← memcpy buf helper.targetDirLen [slash]
      pure ({ helper with targetDirLen := helper.targetDirLen + 1 }, buf)
    else pure (helper, buf)
def endPath (helper : MzPathHelper) (buf fileName : Bytes) : Except Break (Bytes × MzPathHelper) := do
  let rest := fileName.drop helper.zipDirLen.toNat
  let buf ← memcpy buf helper.targetDirLen rest
  let buf ← memcpy buf (helper.targetDirLen + rest.length) [0]
  pure (cString buf, { helper with buf := some buf })

def targetEntryPath (realloc : Bool) (fresh : Nat → UInt8) (helper : MzPathHelper) (fileName : Bytes) :
    Except Break (Bytes × MzPathHelper) := do
  let firstTime := helper.buf.isNone
  let needLen := wrap 32 (helper.targetDirLen + 1 + fileName.length - helper.zipDirLen + 1)
  let helper ← growPath realloc fresh helper needLen
  match helper.buf with
  | none => .error .stuck
  | some buf => do
    let (helper, buf) ← startPath firstTime helper buf
    endPath helper buf fileName

/-! ## The loop over the entries -/

/-- What is answered to the calls made for one entry. `io` are the answers to the reads, the
    writes and the calls of `inflate`, and `oldOff` is where the file of the archive stands. -/
structure Answers (T : Type) where
  realloc : Bool
  fresh : Nat → UInt8
  dir : DirAnswers T
  malloc : Bool
  symlink : Bool
  creat : Bool
  oldOff : Nat
  zlib : Inflater
  io : List Int
  utime : Bool

structure Flags where
  MZ_EXTRACT_FILES_ONLY : Bool
  MZ_EXTRACT_DRY_RUN : Bool

def S_IFMT : Nat := 0o170000
def S_IFLNK : Nat := 0o120000

def mzIsZipEntrySymlink (pEntry : ZipEntry) : Bool :=
  if pEntry.versionMadeBy &&& 0xff00 = CENVEM_UNIX then
    unsigned 32 (pEntry.externalFileAttributes / 2 ^ 16) &&& S_IFMT = S_IFLNK
  else false

section
variable {T : Type} (abi : Abi) (mem : Mem) (file : Bytes) (flags : Flags) (timestamp : Option T) (callback : Bool)

/-- The last character of the name is a slash; the index is an `unsigned int`. -/
def endsInSlash (pEntry : ZipEntry) : Bool :=
  mem (abi.ptr (pEntry.fileName + unsigned 32 ((pEntry.fileNameLen : Int) - 1))) = slash

def extractSymlink (answers : Answers T) (pEntry : ZipEntry) (targetFile : Bytes) : Traced (Call T) Break Unit :=
  if pEntry.uncompLen = 0 then stop .failed
  else if answers.malloc then
    let read := mzReadZipEntry abi file answers.zlib answers.oldOff pEntry ⟨[], wrap 32 pEntry.uncompLen⟩ answers.io
    match read.value with
    | none => stop .stuck
    | some false => stop .failed
    | some true =>
      -- the terminator goes before the buffer when the length is negative
      if pEntry.uncompLen < 0 then stop .stuck
      else do
        let linkTarget := cString (grow answers.fresh (some read.state.buf) pEntry.uncompLen.toNat)
        note (.symlink linkTarget targetFile answers.symlink)
        if answers.symlink then pure () else stop .failed
  else stop .failed

/-- The flag that is set to false when the file cannot be written or touched is an `ok` of
    the block, not that of the function. -/
def extractRegular (answers : Answers T) (pEntry : ZipEntry) (targetFile : Bytes) : Traced (Call T) Break Unit := do
  note (.creat targetFile answers.creat)
  if answers.creat then do
    let run := mzExtractZipEntryToFile abi file answers.zlib answers.oldOff pEntry [] answers.io
    match run.value with
    | none => stop .stuck
    | some ok => do
      note (.extract run.state ok)
      if ok then
        match timestamp with
        | some t => do
          note (.utime targetFile t answers.utime)
          if answers.utime then pure () else stop .shadowed
        | none => pure ()
      else stop .shadowed
  else stop .failed

def createEntry (answers : Answers T) (pEntry : ZipEntry) (targetFile : Bytes) : Traced (Call T) Break Unit :=
  if endsInSlash abi mem pEntry then
    if flags.MZ_EXTRACT_FILES_ONLY then pure ()
    else do
      if ← dirCreateHierarchy answers.dir timestamp targetFile false then pure () else stop .failed
  else do
    if ← dirCreateHierarchy answers.dir timestamp targetFile true then
      if ¬ flags.MZ_EXTRACT_FILES_ONLY ∧ mzIsZipEntrySymlink pEntry then extractSymlink abi file answers pEntry targetFile
      else extractRegular abi file timestamp answers pEntry targetFile
    else stop .failed

def extractEntry (answers : Answers T) (pEntry : ZipEntry) (targetFile : Bytes) : Traced (Call T) Break Unit :=
  if flags.MZ_EXTRACT_DRY_RUN then
    if callback then note (.callback targetFile) else pure ()
  else do
    createEntry abi mem file flags timestamp answers pEntry targetFile
    if callback then note (.callback targetFile) else pure ()

/-- An entry that was extracted, the path that it got, and the calls made for it. -/
structure Visit (T : Type) where
  index : Nat
  targetFile : Bytes
  calls : List (Call T)

/-- How the loop ended, early or not, and the entries that it visited. -/
structure Walk (T : Type) where
  left : Option Break
  visits : List (Visit T)

/-- The part of the loop for an entry that begins with `zipDir`. -/
def visit (answers : Nat → Answers T) (helper : MzPathHelper) (pEntry : ZipEntry) (i : Nat)
    (later : MzPathHelper → Walk T) : Walk T :=
  match targetEntryPath (answers i).realloc (answers i).fresh helper (pEntry.name abi mem) with
  | .error reason => ⟨some reason, []⟩
  | .ok (targetFile, helper) =>
    let step := extractEntry abi mem file flags timestamp callback (answers i) pEntry targetFile
    match step.result with
    | .error reason => ⟨some reason, [⟨i, targetFile, step.trace⟩]⟩
    | .ok () => ⟨(later helper).left, ⟨i, targetFile, step.trace⟩ :: (later helper).visits⟩

/-- `strncmp` of a name that is not shorter and a C string. -/
def differs (fileName zpath : Bytes) (n : Nat) : Bool := cString (fileName.take n) ≠ cString (zpath.take n)

def walk (answers : Nat → Answers T) (zpath : Bytes) (zipDirLen : Nat) (helper : MzPathHelper) (seenMatch : Bool) (i : Nat) :
    List ZipEntry → Walk T
  | [] => ⟨none, []⟩
  | pEntry :: rest =>
    if pEntry.fileNameLen < zipDirLen then
      if seenMatch then ⟨none, []⟩ else walk answers zpath zipDirLen helper seenMatch (i + 1) rest
    else if differs (pEntry.name abi mem) zpath zipDirLen then
      if seenMatch then ⟨none, []⟩ else walk answers zpath zipDirLen helper seenMatch (i + 1) rest
    else
      visit abi mem file flags timestamp callback answers helper pEntry i fun helper =>
        walk answers zpath zipDirLen helper true (i + 1) rest

/-- `malloc` is the one for `zpath`, whose size is an `unsigned int`. -/
def mzExtractRecursive (malloc : Bool) (answers : Nat → Answers T) (pArchive : Archive) (zipDir targetDir : Bytes) : Walk T :=
  if zipDir.head? = some slash then ⟨some .failed, []⟩
  else if targetDir.head? ≠ some slash then ⟨some .failed, []⟩
  else
    let zipDirLen := unsigned 32 zipDir.length
    if malloc = false then ⟨some .failed, []⟩
    else if zipDirLen + 2 ≥ 2 ^ 32 then ⟨some .stuck, []⟩
    else
      let zpath := zipDir.take zipDirLen
      let zpath := if zipDirLen > 0 ∧ zpath.getLast? ≠ some slash then zpath ++ [slash] else zpath
      let helper := ⟨targetDir, none, wrap 32 targetDir.length, wrap 32 zpath.length, 0⟩
      walk abi mem file flags timestamp callback answers zpath zpath.length helper false 0
        (pArchive.pEntries.take pArchive.numEntries)

end

/-- The value that is returned, if any: `ok` is left alone by the inner one. -/
def Walk.ok {T : Type} (w : Walk T) : Option Bool :=
  match w.left with
  | none => some true
  | some .failed => some false
  | some .shadowed => some true
  | some .stuck => none

end Recovery.Extract
