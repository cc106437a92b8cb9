import Recovery.Bu

/-!
Making a backup (backup.cpp).
-/
namespace Recovery.Backup
open Memory Program Program.Prog Bu

/-- What `readdir` returns from a directory, in that order, without `.` and `..`. -/
inductive Entries where
  | nil
  | file (name attrs data : Bytes) (rest : Entries)
  | link (name attrs : Bytes) (rest : Entries)
  | special (name : Bytes) (rest : Entries)
  | dir (name attrs : Bytes) (children rest : Entries)
  deriving DecidableEq, Repr

/-- What is backed up: the bytes of the block devices and the directories of the volumes. -/
structure Source where
  dev : Device
  is_data_media : Bool
  blocks : Bytes → Bytes
  attrs : Bytes → Bytes
  entries : Bytes → Entries

/-- What a failed call, or a pattern of them, left out. -/
inductive Failure where
  | sod
  | eod
  | flush
  | mount (part : Part)
  | device (part : Part)
  /-- The loop over a directory was left before these entries. -/
  | left (path : Bytes) (entries : Entries)
  deriving DecidableEq, Repr

/-- The state of a run: the stream, the hash, what was stored of the partitions and the current one, the records
    that were appended as a whole, what was left out, and whether some append failed. -/
structure State where
  output : Bytes
  hash_name : Option Bytes
  hashed : Bytes
  used : Used
  curpart : Option Bytes
  appended : List (Header × Bytes)
  failures : List Failure
  broken : Bool
  deriving DecidableEq, Repr

abbrev Run := Prog State Int

variable (src : Source)

/-- The process dies where `update_progress` divides by 0. -/
def update_progress : Run Unit := do
  let s ← get
  if divides s.curpart s.used then pure () else stuck
/-- `tar_gz_cb_write`: the bytes are hashed as long as the hash has a name. Progress is shown for each block that
    is written as a whole. -/
def writeBytes (bytes written : Bytes) : Run Unit := do
  modify fun s => { s with
    output := s.output ++ written
    hashed := if s.hash_name.isSome then s.hashed ++ bytes else s.hashed }
  if T_BLOCKSIZE ≤ written.length then update_progress else pure ()
def fail (failure : Failure) : Run Unit := modify fun s => { s with failures := s.failures ++ [failure] }
def note (rc : Int) (failure : Failure) : Run Unit := if rc ≠ 0 then fail failure else pure ()
/-- Appends a record with libtar. If that fails, some first part was hashed, and some of it written. -/
def appendRecord (h : Header) (data : Bytes) : Run Int := do
  let rc ← ask
  if rc = 0 then do
    writeBytes (src.dev.lib.record h data) (src.dev.lib.record h data)
    modify fun s => { s with appended := s.appended ++ [(h, data)] }
    pure 0
  else do
    let hashed ← ask
    let written ← ask
    writeBytes ((src.dev.lib.record h data).take hashed.toNat) ((src.dev.lib.record h data).take written.toNat)
    modify fun s => { s with broken := true }
    pure rc

/-! ## The start and the end record -/

def isRaw (part : Part) : Prop :=
  part.vol.fs_type = ascii "mtd" ∨ part.vol.fs_type = ascii "bml" ∨ part.vol.fs_type = ascii "emmc"
instance (part : Part) : Decidable (isRaw part) := inferInstanceAs (Decidable (_ ∨ _ ∨ _))

def line (key value : Bytes) : Bytes := key ++ 61 :: (value ++ [10])
def partLines (part : Part) (size used : Int) : Bytes :=
  line (ascii "fs." ++ part.name ++ ascii ".size") (decimal (unsigned 64 size)) ++
    line (ascii "fs." ++ part.name ++ ascii ".used") (decimal (unsigned 64 used))
def setUsed (part : Part) (used : Int) : Run Unit :=
  modify fun s => { s with used := (part.name, unsigned 64 used) :: s.used }
/-- The lines of a mounted partition; without an answer of `statfs` the sizes are 0. -/
def statLines (part : Part) : Run Bytes := do
  let known ← ask
  if known = 0 then do
    let size ← ask
    let used ← ask
    setUsed part used
    pure (partLines part size used)
  else pure (partLines part 0 0)
/-- The lines about the size of a partition; none if it cannot be mounted. -/
def sizeLines (part : Part) : Run Bytes :=
  if isRaw part then do
    let size ← ask
    setUsed part size
    pure (partLines part size size)
  else do
    let mounted ← ask
    if mounted ≠ 0 then pure []
    else do
      let lines ← statLines part
      let _ ← ask
      pure lines
def allSizeLines : List Part → Run Bytes
  | [] => pure []
  | part :: rest => do
    let lines ← sizeLines part
    let more ← allSizeLines rest
    pure (lines ++ more)
def textHeader (name : String) (text : Bytes) : Header := ⟨ascii name, true, text.length, []⟩
def sodText (opt_hash sizes : Bytes) : Bytes :=
  line (ascii "hash.name") opt_hash ++ line (ascii "ro.build.product") src.dev.product ++ sizes
def append_sod (opt_hash : Bytes) (partlist : List Part) : Run Int := do
  let sizes ← allSizeLines partlist
  -- neither the value nor the text may overrun its buffer
  if PROPERTY_VALUE_MAX ≤ opt_hash.length ∨ textMax ≤ (sodText src opt_hash sizes).length then stuck
  else appendRecord src (textHeader "SOD" (sodText src opt_hash sizes)) (sodText src opt_hash sizes)

/-- The text of the end record. The length is a `size_t` that is printed with `%u`. -/
def eodText (opt_hash hashed : Bytes) : Bytes :=
  line (ascii "hash.datalen") (decimal (src.dev.hashing.datalen hashed % 2 ^ 32)) ++
    line (ascii "hash.value") (src.dev.hashing.hexdigest (some opt_hash) hashed)
def append_eod (opt_hash : Bytes) : Run Int := do
  let s ← get
  appendRecord src (textHeader "EOD" (eodText src opt_hash s.hashed)) (eodText src opt_hash s.hashed)

/-! ## Partitions -/

/-- The contents of `/data/media` are left out where it is the internal storage. -/
def skipped (path name : Bytes) : Prop := path = ascii "/data" ∧ name = ascii "media" ∧ src.is_data_media = true
instance (path name : Bytes) : Decidable (skipped src path name) := inferInstanceAs (Decidable (_ ∧ _ ∧ _))

def join (path name : Bytes) : Bytes := path ++ 47 :: name
/-- Takes the next entry: `readdir` returns `NULL` at an error as well as at the end, and a failed
    `lstat` ends the loop with its code. -/
def withEntry (path name : Bytes) (entries : Entries) (next visit : Run Int) : Run Int := do
  let read ← ask
  if read ≠ 0 then do
    fail (.left path entries)
    pure 0
  else if skipped src path name then next
  else do
    let rc ← ask
    if rc ≠ 0 then do
      fail (.left path entries)
      pure rc
    else visit
/-- Leaves the loop before some entries unless the return code is 0. -/
def orBreak (path : Bytes) (entries : Entries) (p next : Run Int) : Run Int := do
  let rc ← p
  if rc ≠ 0 then do
    fail (.left path entries)
    pure rc
  else next
def opendir : Run Unit := do
  let opened ← ask
  -- `readdir` of a directory that could not be opened
  if opened ≠ 0 then stuck else pure ()

def fileHeader (path name attrs data : Bytes) : Header := ⟨join path name, true, data.length, attrs⟩
def nodeHeader (path name attrs : Bytes) : Header := ⟨join path name, false, 0, attrs⟩
/-- The loop of `do_backup_tree`. -/
def backupEntries (path : Bytes) : Entries → Run Int
  | .nil => pure 0
  | .file name attrs data rest =>
    withEntry src path name (.file name attrs data rest) (backupEntries path rest)
      (orBreak path (.file name attrs data rest) (appendRecord src (fileHeader path name attrs data) data)
        (backupEntries path rest))
  | .link name attrs rest =>
    withEntry src path name (.link name attrs rest) (backupEntries path rest)
      (orBreak path (.link name attrs rest) (appendRecord src (nodeHeader path name attrs) [])
        (backupEntries path rest))
  | .special name rest =>
    withEntry src path name (.special name rest) (backupEntries path rest) (backupEntries path rest)
  | .dir name attrs children rest =>
    withEntry src path name (.dir name attrs children rest) (backupEntries path rest)
      (orBreak path (.dir name attrs children rest) (appendRecord src (nodeHeader path name attrs) []) do
        opendir
        orBreak path rest (backupEntries (join path name) children) (backupEntries path rest))
def do_backup_tree (path : Bytes) : Run Int := do
  opendir
  backupEntries src path (src.entries path)

def deviceHeader (part : Part) : Header :=
  ⟨part.name, true, (src.blocks part.vol.blk_device).length, src.attrs part.vol.blk_device⟩
def tar_append_device_contents (part : Part) : Run Int := do
  let rc ← ask
  if rc ≠ 0 then pure (-1)
  else do
    let fd ← ask
    if fd < 0 then pure (-1)
    else do
      let rc ← appendRecord src (deviceHeader src part) (src.blocks part.vol.blk_device)
      pure (if rc ≠ 0 then -1 else 0)

/-- The loop over the partitions; `rc` is the code of the last one that was tried. -/
def backupParts : List Part → Int → Run Int
  | [], rc => pure rc
  | part :: rest, rc => do
    modify fun s => { s with curpart := some part.name }
    if isRaw part then do
      let rc ← tar_append_device_contents src part
      note rc (.device part)
      backupParts rest rc
    else do
      let mounted ← ask
      if mounted ≠ 0 then do
        fail (.mount part)
        backupParts rest rc
      else do
        let rc ← do_backup_tree src part.path
        let _ ← ask
        backupParts rest rc

/-! ## The backup -/

/-- Reads the options: the name of the hash and the other arguments, or none for an error. -/
def parseOptions : List Bytes → Bytes → Option (Bytes × List Bytes)
  | [], opt_hash => some (opt_hash, [])
  | arg :: rest, opt_hash =>
    if (ascii "--").isPrefixOf arg then
      if 61 ∈ arg.drop 2 then
        if (arg.drop 2).takeWhile (· != 61) = ascii "hash" then
          parseOptions rest ((arg.drop 2).dropWhile (· != 61)).tail
        else none
      else
        match rest with
        | [] => none
        | value :: rest => if arg.drop 2 = ascii "hash" then parseOptions rest value else none
    else some (opt_hash, arg :: rest)
def partName (arg : Bytes) : Bytes := if arg.head? = some 45 then arg.tail else arg
def addAll : List Bytes → List Part → Option (List Part)
  | [], partlist => some partlist
  | arg :: rest, partlist => (part_add src.dev.volume_for_path partlist (partName arg)).bind (addAll rest)
/-- The name of the hash and the partitions that the arguments ask for. -/
def requested (argv : List Bytes) : Option (Bytes × List Part) := do
  let (opt_hash, names) ← parseOptions argv (ascii "md5")
  let partlist ← addAll src names []
  pure (opt_hash, partlist)

def tar_append_eof : Run Int := do
  let rc ← ask
  if rc = 0 then do
    writeBytes (List.replicate 1024 0) (List.replicate 1024 0)
    pure 0
  else do
    let written ← ask
    writeBytes [] (List.replicate (min written.toNat 1024) 0)
    pure rc
/-- What is done behind the partitions; no code of it is returned. -/
def finishStream (opt_hash : Bytes) (rc : Int) : Run Int := do
  let ended ← append_eod src opt_hash
  note ended .eod
  let _ ← tar_append_eof
  let flushed ← ask
  note flushed .flush
  pure rc
/-- The stream of a backup that could be opened. Only the codes of the partitions are looked at. -/
def backupStream (opt_hash : Bytes) (partlist : List Part) : Run Int := do
  let started ← append_sod src opt_hash partlist
  note started .sod
  modify fun s => { s with hash_name := some opt_hash }
  let rc ← backupParts src partlist 0
  modify fun s => { s with hash_name := none }
  finishStream src opt_hash rc
def do_backup (argv : List Bytes) : Run Int :=
  match requested src argv with
  | none => pure (-1)
  | some (opt_hash, partlist) => do
    let rc ← ask
    if rc ≠ 0 then pure rc else backupStream src opt_hash partlist

def startBackup : State := ⟨[], none, [], [], none, [], [], false⟩

end Recovery.Backup
