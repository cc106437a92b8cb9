import Recovery.Memory

/-!
Reading the partition tables of a disk (mmcutils/mmcutils.c): the master boot record and the chain of
extended boot records behind it. Sector numbers and byte offsets are unsigned 32-bit words.
-/
namespace Recovery.MmcScan
open Memory List

structure Disk where
  size : Nat
  byte : Nat → UInt8

def MAX_PARTITIONS : Nat := 64
def TABLE_ENTRY_0 : Nat := 0x1BE
def TABLE_ENTRY_1 : Nat := 0x1CE
def TABLE_SIGNATURE : Nat := 0x1FE
structure MmcPartition where
  dstatus : Nat
  dtype : Nat
  dfirstsec : Nat
  dsize : Nat
  deriving DecidableEq, Repr

/-- What is stored, with the extended records that were parsed: the number of the sector as the tables
    give it, and the byte offset that it was read at. -/
structure Result where
  ret : Int
  mbr : List MmcPartition
  records : List (Nat × Nat)
  deriving DecidableEq, Repr

def Disk.readable (disk : Disk) (pos : Nat) : Prop := pos + 512 ≤ disk.size
instance (disk : Disk) (pos : Nat) : Decidable (disk.readable pos) := Nat.decLe ..
def Disk.signed (disk : Disk) (pos : Nat) : Prop :=
  disk.byte (pos + TABLE_SIGNATURE) = 0x55 ∧ disk.byte (pos + TABLE_SIGNATURE + 1) = 0xAA
instance (disk : Disk) (pos : Nat) : Decidable (disk.signed pos) := instDecidableAnd
/-- `GET_LWORD_FROM_BYTE`. -/
def Disk.lword (disk : Disk) (pos : Nat) : Nat := leVal ((List.range 4).map fun i => disk.byte (pos + i))
/-- The entry of a table; its first sector is relative to a base. -/
def Disk.entry (disk : Disk) (pos base : Nat) : MmcPartition where
  dstatus := (disk.byte pos).toNat
  dtype := (disk.byte (pos + 4)).toNat
  dfirstsec := (disk.lword (pos + 8) + base) % 2 ^ 32
  dsize := disk.lword (pos + 12)

/-- The offset that is handed to `fseek` for a sector number. -/
def offset (sector : Nat) : Nat := sector % 2 ^ 32 * 512 % 2 ^ 32

variable (disk : Disk)

def Disk.link (pos : Nat) : Nat := disk.lword (pos + TABLE_ENTRY_1 + 8)

/-- Stores the partition of the extended record that was read for a sector. -/
def store (sector : Nat) (r : Result) : Result := { r with
  mbr := r.mbr ++ [disk.entry (offset sector + TABLE_ENTRY_0) (sector % 2 ^ 32)]
  records := r.records ++ [(sector, offset sector)] }
/-- A record whose sector is on the disk was read at its place. -/
def Disk.RightAt (record : Nat × Nat) : Prop :=
  record.1 < 2 ^ 32 → disk.readable (512 * record.1) → record.2 = 512 * record.1
instance (record : Nat × Nat) : Decidable (disk.RightAt record) := inferInstanceAs (Decidable (_ → _ → _))
/-- At most as many partitions are stored as there is room for, and every extended record was read at
    its place. -/
def Result.Right (r : Result) : Prop := r.mbr.length ≤ MAX_PARTITIONS ∧ ∀ record ∈ r.records, disk.RightAt record
instance (r : Result) : Decidable (r.Right disk) := instDecidableAnd

/-- A sector number of the tables lies in the first 4 GiB, if it is on the disk. -/
def Disk.near (sector : Nat) : Prop := sector < 2 ^ 32 → disk.readable (512 * sector) → sector < 2 ^ 23
variable {disk}

end Recovery.MmcScan
