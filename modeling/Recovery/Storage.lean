import Recovery.Memory
import Recovery.Program

/-!
The storage that `applypatch` works on: files by name, raw MTD partitions by name, and the calls
that change them. Each call asks the environment how it went, so a run may be cut off before any of
them.
-/
namespace Recovery
open Memory Program Program.Prog

abbrev Path := List Char

/-- What `stat` tells of the owner and the permissions. -/
structure Stat where
  mode : Nat
  uid : Nat
  gid : Nat
  deriving DecidableEq, Repr

/-- The call that a damaged or forbidden file makes fail. -/
inductive Fault where
  | stat
  | open
  | read
  deriving DecidableEq, Repr

structure Node where
  regular : Bool
  stat : Stat
  data : Bytes
  fault : Option Fault
  /-- Written since it was last synced. -/
  dirty : Bool
  deriving DecidableEq, Repr

/-- An MTD partition: what its good blocks hold, and whether its device opens. -/
structure Mtd where
  data : Bytes
  opens : Bool
  deriving DecidableEq, Repr

structure Storage where
  files : Path → Option Node
  mtd : Path → Option Mtd
  /-- Whether `unlink` of a name succeeds. -/
  removable : Path → Bool
  /-- Whether an MTD partition gives back what was written to it without an error: no block that the
      driver gives up, or takes for good only when it writes, stays in the way of reading. -/
  lossless : Path → Bool

/-- What the environment answers to one call: whether it succeeds, how many bytes
    or blocks, what a device then holds, what a directory lists. -/
structure Answer where
  ok : Bool := true
  count : Nat := 0
  blockSize : Nat := 0
  interrupted : Bool := false
  bytes : Bytes := []
  names : List Path := []
  links : List (Path × Option (List Path)) := []
  deriving DecidableEq, Repr

abbrev Op := Prog Storage Answer

namespace Storage

def setFile (s : Storage) (path : Path) (node : Option Node) : Storage :=
  { s with files := fun p => if p = path then node else s.files p }
def setMtd (s : Storage) (name : Path) (mtd : Mtd) : Storage :=
  { s with mtd := fun p => if p = name then some mtd else s.mtd p }

@[simp] theorem setFile_same (s : Storage) (path : Path) (node : Option Node) :
    (s.setFile path node).files path = node := by simp [setFile]
theorem setFile_other (s : Storage) {path p : Path} (node : Option Node) (other : p ≠ path) :
    (s.setFile path node).files p = s.files p := by simp [setFile,other]
@[simp] theorem setMtd_same (s : Storage) (name : Path) (mtd : Mtd) :
    (s.setMtd name mtd).mtd name = some mtd := by simp [setMtd]
theorem setMtd_other (s : Storage) {name p : Path} (mtd : Mtd) (other : p ≠ name) :
    (s.setMtd name mtd).mtd p = s.mtd p := by simp [setMtd,other]

/-! ## Calls -/

/-- The file that `open` with `O_CREAT` makes, mode 0600. -/
def created : Node := ⟨true, ⟨384, 0, 0⟩, [], none, true⟩

/-- `open` with `O_WRONLY | O_CREAT | O_TRUNC`; only regular files are opened so. -/
def openTrunc (path : Path) : Op Bool := do
  let answer ← ask
  let s ← get
  match s.files path with
  | none =>
    if answer.ok then do modify (·.setFile path (some created)); pure true
    else pure false
  | some node =>
    if answer.ok ∧ node.regular then do
      modify (·.setFile path (some { node with data := [], fault := none, dirty := true })); pure true
    else pure false

/-- `write` at the end of a file: the number of bytes taken, or -1. -/
def write (path : Path) (data : Bytes) : Op Int := do
  let answer ← ask
  let s ← get
  match s.files path with
  | none => pure (-1)
  | some node =>
    if answer.ok then do
      modify (·.setFile path (some { node with data := node.data ++ data.take answer.count, dirty := true }))
      pure (min answer.count data.length : Nat)
    else pure (-1)

theorem write_taken {path : Path} {s : Storage} {node : Node} {answer : Answer} (found : s.files path = some node)
    (ok : answer.ok = true) (data : Bytes) (rest : List Answer) : write path data s (answer :: rest) =
      ⟨some (min answer.count data.length : Nat),
        s.setFile path (some { node with data := node.data ++ data.take answer.count, dirty := true }),rest⟩ := by
  simp only [write,bind_run,ask,get_run,next,found,ok,↓reduceIte,modify_run,pure_run]
theorem write_refused {path : Path} {s : Storage} {answer : Answer}
    (refused : s.files path = none ∨ answer.ok = false) (data : Bytes) (rest : List Answer) :
    write path data s (answer :: rest) = ⟨some (-1),s,rest⟩ := by
  rcases refused with missing | failed
  · simp only [write,bind_run,ask,get_run,next,missing,pure_run]
  · cases found : s.files path with
    | none => simp only [write,bind_run,ask,get_run,next,found,pure_run]
    | some node => simp only [write,bind_run,ask,get_run,next,found,failed,Bool.false_eq_true,↓reduceIte,pure_run]

def fsync (path : Path) : Op Unit := do
  let _ ← ask
  modify fun s => s.setFile path ((s.files path).map fun node => { node with dirty := false })

/-- `chmod`, `chown`: a change of what `stat` tells. -/
def setStat (path : Path) (change : Stat → Stat) : Op Bool := do
  let answer ← ask
  let s ← get
  match s.files path with
  | none => pure false
  | some node =>
    if answer.ok then do modify (·.setFile path (some { node with stat := change node.stat })); pure true
    else pure false
def chmod (path : Path) (mode : Nat) : Op Bool := setStat path fun st => { st with mode }
def chown (path : Path) (uid gid : Nat) : Op Bool := setStat path fun st => { st with uid, gid }

/-- `unlink`; no caller looks at its result. -/
def unlink (path : Path) : Op Unit := do
  let _ ← ask
  modify fun s => if s.removable path then s.setFile path none else s

def rename (path new : Path) : Op Bool := do
  let answer ← ask
  let s ← get
  match s.files path with
  | none => pure false
  | some node =>
    if answer.ok then do modify fun s => (s.setFile path none).setFile new (some node); pure true
    else pure false

/-- `FreeSpaceForFile`: the product of the sizes that `statfs` tells, as a size_t;
    its -1 is the greatest size_t. -/
def freeSpaceForFile (_filename : Path) : Op Nat := do
  let answer ← ask
  pure (if answer.ok then unsigned 64 (answer.blockSize * answer.count) else unsigned 64 (-1))

/-- A device holds anything once a write to it was begun. -/
def disturb (path : Path) (bytes : Bytes) : Storage → Storage := fun s =>
  s.setFile path ((s.files path).map fun node => { node with data := bytes })
/-- An MTD partition holds anything while it is written. -/
def disturbMtd (name : Path) (bytes : Bytes) : Storage → Storage := fun s =>
  match s.mtd name with
  | some mtd => s.setMtd name { mtd with data := bytes }
  | none => s

/-! ## Frames -/

/-- Only the files and partitions named may differ. -/
structure Frame (paths names : Path → Prop) (s t : Storage) : Prop where
  files : ∀ p, ¬ paths p → t.files p = s.files p
  mtd : ∀ p, ¬ names p → t.mtd p = s.mtd p
  removable : t.removable = s.removable
  lossless : t.lossless = s.lossless

section Frames
variable {paths names : Path → Prop}

instance : IsPreorder Storage (Frame paths names) where
  refl _ := ⟨fun _ _ => rfl, fun _ _ => rfl, rfl, rfl⟩
  trans _ _ _ first second := ⟨fun p out => (second.files p out).trans (first.files p out),
    fun p out => (second.mtd p out).trans (first.mtd p out), second.removable.trans first.removable,
    second.lossless.trans first.lossless⟩
theorem frame_mono {paths' names' : Path → Prop} {s t : Storage} (frame : Frame paths names s t)
    (more : ∀ p, paths p → paths' p) (more' : ∀ p, names p → names' p) : Frame paths' names' s t :=
  ⟨fun p out => frame.files p fun h => out (more p h),fun p out => frame.mtd p fun h => out (more' p h),
    frame.removable,frame.lossless⟩
theorem setFile_frame {path : Path} (touched : paths path) (s : Storage) (node : Option Node) :
    Frame paths names s (s.setFile path node) := by
  refine ⟨fun p out => setFile_other s node ?_,fun _ _ => rfl,rfl,rfl⟩
  rintro rfl
  exact out touched

theorem setMtd_frame {name : Path} (touched : names name) (s : Storage) (mtd : Mtd) :
    Frame paths names s (s.setMtd name mtd) := by
  refine ⟨fun _ _ => rfl,fun p out => setMtd_other s mtd ?_,rfl,rfl⟩
  rintro rfl
  exact out touched
theorem disturbMtd_frame {name : Path} (touched : names name) (bytes : Bytes) (s : Storage) :
    Frame paths names s (disturbMtd name bytes s) := by
  unfold disturbMtd
  split
  · exact setMtd_frame touched s _
  · exact refl s

variable {path : Path} (touched : paths path)
include touched

theorem write_frame (data : Bytes) : Keeps (Frame paths names) (write path data) := by
  refine keeps_bind keeps_ask fun answer => keeps_bind keeps_get fun s => ?_
  cases s.files path with
  | none => exact keeps_pure _
  | some node =>
    exact keeps_ite (fun _ => keeps_bind (keeps_modify fun s => setFile_frame touched s _)
      fun _ => keeps_pure _) fun _ => keeps_pure _
theorem unlink_frame : Keeps (Frame paths names) (unlink path) := by
  refine keeps_bind keeps_ask fun _ => keeps_modify fun s => ?_
  split
  · exact setFile_frame touched s none
  · exact refl s

end Frames

/-- What a reboot leaves of storage: everything that was synced. -/
structure Reboot (s t : Storage) : Prop where
  files : ∀ p, (∃ node, s.files p = some node ∧ node.dirty = true ∧
    ∀ node', t.files p = some node' → node'.dirty = false) ∨
    ((∀ node, s.files p = some node → node.dirty = false) ∧ t.files p = s.files p)
  mtd : t.mtd = s.mtd
  removable : t.removable = s.removable
  lossless : t.lossless = s.lossless

end Storage

end Recovery
