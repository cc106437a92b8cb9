import Recovery.Memory
import Recovery.Chunking

/-!
Reading and writing of MTD partitions (mtdutils). A position in a partition is always that
of an erase block, and stands here for the number of the block. What the flash chip does
with each block is given; the loops pass over each block once.
-/
namespace Recovery.Mtd
open Memory Chunking

structure MtdPartition where
  size : Nat
  erase_size : Nat
  erase_pos : 0 < erase_size

/-- The blocks that are used: `(int) partition->size` bounds them. -/
def MtdPartition.blocks (p : MtdPartition) : Nat := (wrap 32 p.size).toNat / p.erase_size
/-- The number of blocks that `mtd_erase_blocks` counts from a position on, an `int`. -/
def MtdPartition.blocksLeft (p : MtdPartition) (pos : Nat) : Int :=
  wrap 32 (((p.size - pos * p.erase_size) / p.erase_size : Nat) : Int)
def MtdPartition.blocksFrom (p : MtdPartition) (pos : Nat) : List Nat := List.range' pos (p.blocks - pos)

/-- The answer to `MEMGETBADBLOCK`: 0, a positive number, or an error, which may be
    `EOPNOTSUPP`. -/
inductive BadBlock where
  | good
  | bad
  | unsupported
  | error
  deriving DecidableEq, Repr

/-- What comes of one try to write a block: whether it is erased, whether it can be read
    again, and what it then holds. -/
structure Attempt where
  erased : Bool
  reread : Bool
  holds : Bytes
  deriving DecidableEq

/-- What the flash does. For the writer: the answer to `MEMGETBADBLOCK`, the tries to write data, and
    what `MEMERASE` leaves. For the reader: whether a block can be read, the errors that adds to
    `ecc_stats.failed`, and the answer to `MEMGETBADBLOCK`. -/
structure Chip (p : MtdPartition) where
  badBlock : Nat → BadBlock
  attempt : Nat → Nat → Bytes → Attempt
  erase : Nat → Bytes → Bytes
  readable : Nat → Bool
  failures : Nat → Nat
  badWhenRead : Nat → BadBlock
  attempt_length : ∀ k retry data, (attempt k retry data).holds.length = p.erase_size
  erase_length : ∀ k block, (erase k block).length = p.erase_size

structure Flash (p : MtdPartition) where
  block : Nat → Bytes
  whole : ∀ k, (block k).length = p.erase_size

def Flash.set {p : MtdPartition} (flash : Flash p) (k : Nat) (data : Bytes) (whole : data.length = p.erase_size) : Flash p where
  block i := if i = k then data else flash.block i
  whole i := by
    split
    · exact whole
    · exact flash.whole i

section
variable {p : MtdPartition} (chip : Chip p)

/-! ## Writing -/

/-- The file and the flash; `written` are the blocks that `write_block` reported as written,
    with their data. -/
structure Writing (p : MtdPartition) where
  pos : Nat
  flash : Flash p
  bad_block_offsets : List Nat
  written : List (Nat × Bytes)

/-- The bytes `stored` in the buffer, and the rest. -/
abbrev MtdWriteContext (p : MtdPartition) := Putter (Writing p) UInt8

/-- A try succeeds when the block reads as what was written; an error of `write` itself is only
    printed. -/
def Attempt.succeeds (a : Attempt) (data : Bytes) : Bool := a.erased && a.reread && a.holds == data

def retries (pos : Nat) (data : Bytes) : Option Nat :=
  if (chip.attempt pos 0 data).succeeds data then some 0
  else if (chip.attempt pos 1 data).succeeds data then some 1
  else none
def writeLoop (data : Bytes) : List Nat → Writing p → Option (Writing p)
  | [], _ => none
  | pos :: rest, ctx =>
    match chip.badBlock pos with
    | .bad | .error => writeLoop data rest { ctx with bad_block_offsets := ctx.bad_block_offsets ++ [pos] }
    | .good | .unsupported =>
      match retries chip pos data with
      | some retry => some { ctx with
          pos := pos + 1, flash := ctx.flash.set pos _ (chip.attempt_length pos retry data),
          written := ctx.written ++ [(pos, data)] }
      | none => writeLoop data rest { ctx with
          flash := ctx.flash.set pos _ (chip.erase_length pos (chip.attempt pos 1 data).holds),
          bad_block_offsets := ctx.bad_block_offsets ++ [pos] }
def write_block (ctx : Writing p) (data : Bytes) : Option (Writing p) := writeLoop chip data (p.blocksFrom ctx.pos) ctx

def writeWhole : Nat → Writing p → Bytes → Option (Writing p × Bytes)
  | 0, ctx, data => some (ctx, data)
  | n + 1, ctx, data =>
    if data.length ≥ p.erase_size then do
      let ctx ← write_block chip ctx (data.take p.erase_size)
      writeWhole n ctx (data.drop p.erase_size)
    else some (ctx, data)
/-- Coalesces a partial write: the buffer and the data that is left. -/
def coalesce (p : MtdPartition) (stored data : Bytes) : Bytes × Bytes :=
  if stored.length > 0 ∨ data.length < p.erase_size then
    let avail := p.erase_size - stored.length
    (stored ++ data.take avail, data.drop avail)
  else (stored, data)
def flush (ctx : MtdWriteContext p) : Option (MtdWriteContext p) :=
  if ctx.stored.length = p.erase_size then (write_block chip ctx.state ctx.stored).map fun s => ⟨s, []⟩ else some ctx
/-- The loop of `mtd_write_data`. Each round takes data, so it ends within `fuel` rounds. -/
def writeRounds : Nat → MtdWriteContext p → Bytes → Option (MtdWriteContext p)
  | 0, ctx, data => if data = [] then some ctx else none
  | fuel + 1, ctx, data =>
    if data = [] then some ctx
    else do
      let (stored, data) := coalesce p ctx.stored data
      let ctx ← flush chip ⟨ctx.state, stored⟩
      if ctx.stored.length = 0 then do
        let (state, data) ← writeWhole chip (data.length / p.erase_size) ctx.state data
        writeRounds fuel ⟨state, []⟩ data
      else writeRounds fuel ctx data
def mtd_write_data (ctx : MtdWriteContext p) (data : Bytes) : Option (MtdWriteContext p) :=
  writeRounds chip data.length ctx data

def writePending (ctx : MtdWriteContext p) : Option (MtdWriteContext p) :=
  if ctx.stored.length > 0 then
    (write_block chip ctx.state (ctx.stored ++ List.replicate (p.erase_size - ctx.stored.length) 0)).map fun s => ⟨s, []⟩
  else some ctx
def eraseLoop : List Nat → Flash p → Flash p
  | [], flash => flash
  | pos :: rest, flash =>
    if chip.badBlock pos = .bad then eraseLoop rest flash
    else eraseLoop rest (flash.set pos _ (chip.erase_length pos (flash.block pos)))
/-- Erases the given number of blocks, of `total`. -/
def eraseBlocks (ctx : MtdWriteContext p) (total blocks : Int) : Option (MtdWriteContext p × Nat) :=
  if blocks > total then none
  else some (⟨{ ctx.state with flash := eraseLoop chip (List.range' ctx.state.pos blocks.toNat) ctx.state.flash }, ctx.stored⟩,
    ctx.state.pos + blocks.toNat)
/-- Returns the position after the last block, too. -/
def mtd_erase_blocks (ctx : MtdWriteContext p) (blocks : Int) : Option (MtdWriteContext p × Nat) := do
  let ctx ← writePending chip ctx
  eraseBlocks chip ctx (p.blocksLeft ctx.state.pos) (if blocks < 0 then p.blocksLeft ctx.state.pos else blocks)
/-- `closed` tells whether `close` succeeds. -/
def mtd_write_close (closed : Bool) (ctx : MtdWriteContext p) : Option (MtdWriteContext p) := do
  let (ctx, _) ← mtd_erase_blocks chip ctx 0
  if closed then some ctx else none

/-- `mtd_write_partition`, the writes and `mtd_write_close`, when all of them report success. -/
def writePartition (flash : Flash p) (writes : List Bytes) (closed : Bool) : Option (Writing p) := do
  let ctx ← writes.foldlM (mtd_write_data chip) ⟨⟨0, flash, [], []⟩, []⟩
  let ctx ← mtd_write_close chip closed ctx
  some ctx.state

/-! ## Reading -/

/-- Where the file is, and the number of errors counted by `ecc_stats.failed`. -/
structure Reading where
  pos : Nat
  failed : Nat
  deriving DecidableEq

/-- `before` is what the count is compared with. -/
def readLoop (flash : Flash p) (before : Nat) : List Nat → Nat → Option ((Nat × Bytes) × Reading)
  | [], _ => none
  | pos :: rest, failed =>
    let after := failed + chip.failures pos
    if chip.readable pos = false then readLoop flash before rest after
    else if after ≠ before then readLoop flash after rest after
    else if chip.badWhenRead pos ≠ .good then readLoop flash before rest after
    else some ((pos, flash.block pos), ⟨pos + 1, after⟩)
def read_block (flash : Flash p) (ctx : Reading) : Option ((Nat × Bytes) × Reading) :=
  readLoop chip flash ctx.failed (p.blocksFrom ctx.pos) ctx.failed

/-- What is left of the buffer, and the rest. -/
abbrev MtdReadContext := Getter Reading UInt8

def copyLeft (ctx : MtdReadContext) (len : Nat) : Bytes × MtdReadContext :=
  (ctx.left.take len, ⟨ctx.state, ctx.left.drop len⟩)
/-- Reads complete blocks directly into the user's buffer. -/
def readWhole (flash : Flash p) : Nat → Reading → Option (Bytes × Reading)
  | 0, ctx => some ([], ctx)
  | n + 1, ctx => do
    let ((_, block), ctx) ← read_block chip flash ctx
    let (data, ctx) ← readWhole flash n ctx
    some (block ++ data, ctx)
/-- The loop of `mtd_read_data`, with `len` bytes still to be read. Every second round reads
    something, so it ends within `fuel` rounds. -/
def readRounds (flash : Flash p) : Nat → MtdReadContext → Nat → Option (Bytes × MtdReadContext)
  | 0, ctx, len => if len = 0 then some ([], ctx) else none
  | fuel + 1, ctx, len =>
    if len = 0 then some ([], ctx)
    else do
      let (copied, ctx) := copyLeft ctx len
      let len := len - copied.length
      if ctx.left.length = 0 then do
        let (data, state) ← readWhole chip flash (len / p.erase_size) ctx.state
        let len := len - data.length
        if len = 0 then some (copied ++ data, ⟨state, []⟩)
        else do
          let ((_, buffer), state) ← read_block chip flash state
          let (rest, ctx) ← readRounds flash fuel ⟨state, buffer⟩ len
          some (copied ++ data ++ rest, ctx)
      else some (copied, ctx)
def mtd_read_data (flash : Flash p) (ctx : MtdReadContext) (len : Nat) : Option (Bytes × MtdReadContext) :=
  readRounds chip flash (len + 1) ctx len

def readAll (flash : Flash p) : MtdReadContext → List Nat → Option (List Bytes × MtdReadContext)
  | ctx, [] => some ([], ctx)
  | ctx, len :: lens => do
    let (data, ctx) ← mtd_read_data chip flash ctx len
    let (rest, ctx) ← readAll flash ctx lens
    some (data :: rest, ctx)
/-- `mtd_read_partition` and the reads. -/
def readPartition (flash : Flash p) (failed : Nat) (lens : List Nat) : Option (List Bytes) :=
  (readAll chip flash ⟨⟨0, failed⟩, []⟩ lens).map Prod.fst
def readBlocks (flash : Flash p) : Nat → Reading → Option (List (Nat × Bytes) × Reading)
  | 0, ctx => some ([], ctx)
  | n + 1, ctx => do
    let (block, ctx) ← read_block chip flash ctx
    let (rest, ctx) ← readBlocks flash n ctx
    some (block :: rest, ctx)

end

end Recovery.Mtd
