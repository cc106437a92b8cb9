import Recovery.Bu

/-!
Restoring a backup (restore.cpp). The run reads a tar stream; what the device answers to
mounting, formatting and extracting is not known beforehand.
-/
namespace Recovery.Restore
open Memory Program Program.Prog Bu

/-- A record that was restored: its header, the bytes that were read for the header, and those
    that were read as its data. -/
structure Seen where
  header : Header
  head : Bytes
  data : Bytes
  deriving DecidableEq, Repr
def Seen.contents (r : Seen) : Bytes := r.data.take r.header.size

inductive Call where
  /-- Formatted, and then mounted. -/
  | mounted (path : Bytes)
  | extract (path : Bytes)
  deriving DecidableEq, Repr

/-- The state of a run: the rest of the stream, the hash, the list of partitions with what was stored of them
    and the current one, what was written to which path, the records so far, and the partitions that were
    mounted and the paths that were extracted, in their order. -/
structure State where
  input : Bytes
  hash_name : Option Bytes
  hashed : Bytes
  partlist : List Part
  used : Used
  curpart : Option Bytes
  cur_mount : Bytes
  written : List (Bytes × Bytes)
  seen : List Seen
  calls : List Call
  deriving DecidableEq, Repr

abbrev Run := Prog State Int

variable (dev : Device)

/-- The process dies where `update_progress` divides by 0. -/
def update_progress : Run Unit := do
  let s ← get
  if divides s.curpart s.used then pure () else stuck
/-- `tar_gz_cb_read`: what is read is hashed once the name of the hash is known. -/
def readBytes (n : Nat) : Run Bytes := do
  let s ← get
  modify fun s => { s with
    input := s.input.drop n
    hashed := if s.hash_name.isSome then s.hashed ++ s.input.take n else s.hashed }
  update_progress
  pure (s.input.take n)
/-- The blocks behind a header, if there are any. -/
def readData (n : Nat) : Run Bytes := if n = 0 then pure [] else readBytes n

def th_read : Run (ThRead × Bytes) := do
  let s ← get
  let head ← readBytes (dev.lib.th_read s.input).2
  pure ((dev.lib.th_read s.input).1, head)
/-- Reads the contents of a small regular file, with the bytes that were read for it. -/
def tar_extract_file_contents (h : Header) : Run (Option Bytes) := do
  let s ← get
  if h.regular = false ∨ textMax < h.size then pure none
  else if s.input.length < h.dataLength then do
    update_progress
    pure none
  else do
    let data ← readData h.dataLength
    pure (some data)
/-- Writes the data of a record to a path: the return code, and the bytes that were read. A call that fails
    may have read something before. -/
def tar_extract_file (h : Header) (path : Bytes) : Run (Int × Bytes) := do
  let rc ← ask
  let s ← get
  if rc ≠ 0 then do
    let read ← ask
    (if read ≠ 0 then update_progress else pure ())
    pure (rc, [])
  else if s.input.length < h.dataLength then do
    update_progress
    pure (-1, [])
  else do
    let data ← readData h.dataLength
    modify fun s => { s with written := s.written ++ [(path, data.take h.size)] }
    pure (0, data)

/-! ## The start record -/

/-- The name and the attribute of a key `fs.NAME.ATTR`. -/
def fsKey (key : Bytes) : Option (Bytes × Bytes) :=
  if (ascii "fs.").isPrefixOf key ∧ 46 ∈ key.drop 3 then
    some ((key.drop 3).takeWhile (· != 46), ((key.drop 3).dropWhile (· != 46)).tail)
  else none
/-- A line about a partition adds it to the list. What it says is stored through a pointer that may be `NULL`;
    the size is not used. -/
def addParts : List (Bytes × Bytes) → Run Unit
  | [] => pure ()
  | (key, val) :: rest =>
    match fsKey key with
    | none => addParts rest
    | some (name, attr) => do
      modify fun s => { s with partlist := (part_add dev.volume_for_path s.partlist name).getD s.partlist }
      let s ← get
      if (attr = ascii "size" ∨ attr = ascii "used") ∧ part_find s.partlist name = none then stuck
      else do
        modify fun s => { s with
          used := if attr = ascii "used" then (name, strtoul dev.hashing.bits val) :: s.used else s.used }
        addParts rest
def sodValue (key : String) (text : Bytes) : Bytes := (lastValue (ascii key) text).getD []
def verify_sod (h : Header) : Run (Int × Bytes) := do
  match ← tar_extract_file_contents h with
  | none => pure (-1, [])
  | some data => do
    let text := data.take h.size
    addParts dev (keyValues text)
    -- a value that fills its buffer has no end
    if PROPERTY_VALUE_MAX ≤ (sodValue "hash.name" text).length ∨
        PROPERTY_VALUE_MAX ≤ (sodValue "ro.build.product" text).length then stuck
    else if sodValue "hash.name" text = [] then pure (-1, data)
    else do
      modify fun s => { s with hash_name := some (sodValue "hash.name" text) }
      if sodValue "ro.build.product" text = [] then pure (-1, data)
      else if sodValue "ro.build.product" text ≠ dev.product then pure (-1, data)
      else pure (0, data)

/-! ## The end record -/

def reportedLength (text : Bytes) : Nat :=
  ((lastValue (ascii "hash.datalen") text).map (strtoul dev.hashing.bits)).getD 0
def reportedHash (text : Bytes) : Bytes :=
  ((lastValue (ascii "hash.value") text).getD []).take HASH_MAX_STRING_LENGTH
/-- Whether the length and the hash of an end record are those of the data. -/
def eodMatches (hash_name : Option Bytes) (data text : Bytes) : Bool :=
  reportedLength dev text = dev.hashing.datalen data ∧
    (dev.hashing.hexdigest hash_name data).isPrefixOf (reportedHash text)
def verify_eod (h : Header) (saved : Bytes) : Run (Int × Bytes) := do
  match ← tar_extract_file_contents h with
  | none => pure (-1, [])
  | some data => do
    let s ← get
    pure (if eodMatches dev s.hash_name saved (data.take h.size) then 0 else -1, data)

/-! ## The loop -/

def mountOf (pathname : Bytes) : Bytes := 47 :: pathname.tail.takeWhile (· != 47)
/-- `part_set(part_find(name))`. -/
def partSet (name : Bytes) : Run Unit := do
  let s ← get
  if part_find s.partlist name = none then stuck else modify fun s => { s with curpart := some name }
def leaveMount : Run Unit := do
  let s ← get
  if s.cur_mount ≠ [] then do
    let _ ← ask
    pure ()
  else pure ()
/-- Formats and mounts the partition that an absolute path is on, unless it is the one before.
    The names are compared up to the length of the new one. -/
def switchMount (pathname : Bytes) : Run Int := do
  let s ← get
  if pathname.head? = some 47 ∧ ¬ (mountOf pathname).isPrefixOf s.cur_mount then do
    leaveMount
    modify fun s => { s with cur_mount := mountOf pathname }
    let unmounted ← ask
    if unmounted ≠ 0 then pure unmounted
    else do
      let formatted ← ask
      if formatted ≠ 0 then pure formatted
      else do
        let mounted ← ask
        if mounted ≠ 0 then pure mounted
        else do
          partSet (mountOf pathname).tail
          modify fun s => { s with calls := s.calls ++ [.mounted (mountOf pathname)] }
          pure 0
  else pure 0
/-- What is done with a record. Without a volume for `boot` or `recovery` nothing is done, and
    nothing is read. -/
def restoreRecord (h : Header) (saved : Bytes) : Run (Int × Bytes) :=
  if h.name = ascii "SOD" then verify_sod dev h
  else if h.name = ascii "EOD" then verify_eod dev h saved
  else if h.name = ascii "boot" ∨ h.name = ascii "recovery" then
    match dev.volume_for_path (47 :: h.name) with
    | some vol => do
      partSet h.name
      tar_extract_file h vol.blk_device
    | none => pure (0, [])
  else do
    modify fun s => { s with calls := s.calls ++ [.extract h.name] }
    tar_extract_file h h.name

def restoreLoop : Nat → Run Int
  | 0 => stuck
  | fuel + 1 => do
    let s ← get
    match ← th_read dev with
    | (.eof, _) => pure 0
    | (.failed, _) => pure (-1)
    | (.header h, head) => do
      let rc ← switchMount h.name
      if rc ≠ 0 then pure rc
      else do
        let (rc, data) ← restoreRecord dev h s.hashed
        if rc ≠ 0 then pure rc
        else do
          modify fun s => { s with seen := s.seen ++ [⟨h, head, data⟩] }
          restoreLoop fuel
def do_restore_tree (fuel : Nat) : Run Int := do
  let rc ← restoreLoop dev fuel
  leaveMount
  pure rc
/-- The state of a new process that is given a stream. -/
def startRestore (stream : Bytes) : State := ⟨stream, none, [], [], [], none, [], [], [], []⟩

end Recovery.Restore
