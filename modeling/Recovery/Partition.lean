import Recovery.Load

/-!
`WriteToPartition`: an MTD partition is written through its driver, an eMMC device is written,
synced and read back, in two attempts.
-/
namespace Recovery.Partition
open Memory Program Program.Prog Storage Load List

/-! ## MTD -/

/-- `mtd_write_close`, after an error. -/
def mtdGiveUp (name : Path) : Op Int := do
  let answer ← ask
  modify (disturbMtd name answer.bytes)
  pure (-1)

/-- The MTD branch. The driver pads the last block and erases the rest, so a write that reports
    no error leaves the data at the start, unless blocks that it gave up are read in between: nothing
    is read back here. -/
def writeMtd (name : Path) (data : Bytes) : Op Int := do
  let s ← get
  match s.mtd name with
  | none => pure (-1)
  | some mtd => do
    let opened ← ask
    if ¬ (opened.ok ∧ mtd.opens) then pure (-1)
    else do
      let written ← ask
      modify (disturbMtd name written.bytes)
      if ¬ written.ok then mtdGiveUp name
      else do
        let erased ← ask
        modify (disturbMtd name erased.bytes)
        if ¬ erased.ok then mtdGiveUp name
        else do
          let closed ← ask
          if ¬ closed.ok then do
            modify (disturbMtd name closed.bytes)
            pure (-1)
          else do
            modify (·.setMtd name { mtd with data := if s.lossless name then data ++ closed.bytes else closed.bytes })
            pure 0

/-! ## eMMC -/

/-- The write loop of an attempt; false when a write fails. -/
def emmcWrite (device : Path) (len : Nat) : Nat → Op Bool :=
  iterate fun start =>
    if start < len then do
      let toWrite := min (len - start) (1 <<< 20)
      let answer ← ask
      modify (disturb device answer.bytes)
      if answer.ok then pure (.inl (start + min answer.count toWrite))
      else if answer.interrupted then pure (.inl start)
      else pure (.inr false)
    else pure (.inr true)

def deviceData (s : Storage) (device : Path) : Option Bytes :=
  (s.files device).bind fun node => if node.fault = none then some node.data else none

/-- The read loop of a block, with the bytes read so far; none when a read fails.
    A device that is too short keeps it reading for ever. -/
def readBlock (device : Path) (p toRead : Nat) : Bytes → Op (Option Bytes) :=
  iterate fun buffer =>
    if buffer.length < toRead then do
      let answer ← ask
      let s ← get
      match deviceData s device with
      | none => pure (.inr none)
      | some contents =>
        if answer.ok then
          let count := min answer.count (toRead - buffer.length)
          pure (.inl (buffer ++ (contents.drop (p + buffer.length)).take count))
        else if answer.interrupted then pure (.inl buffer)
        else pure (.inr none)
    else pure (.inr (some buffer))

inductive Verified where
  | same
  | differs (p : Nat)
  | failed
  deriving DecidableEq, Repr

def emmcVerify (device : Path) (data : Bytes) : Nat → Op Verified :=
  iterate fun p =>
    if p < data.length then do
      let toRead := min (data.length - p) 4096
      match ← readBlock device p toRead [] with
      | none => pure (.inr .failed)
      | some buffer =>
        if buffer = (data.drop p).take toRead then pure (.inl (p + 4096)) else pure (.inr (.differs p))
    else pure (.inr .same)

/-- The attempts: each writes from where the one before went wrong. -/
def emmcAttempts (device : Path) (data : Bytes) : Nat → Nat → Op Int
  | 0, _ => pure (-1)
  | left + 1, start => do
    if ¬ (← emmcWrite device data.length start) then pure (-1)
    else do
      fsync device
      match ← emmcVerify device data 0 with
      | .failed => pure (-1)
      | .differs p => emmcAttempts device data left p
      | .same =>
        let closed ← ask
        pure (if closed.ok then 0 else -1)

def writeEmmc (device : Path) (data : Bytes) : Op Int := do
  let s ← get
  match s.files device with
  | none => pure (-1)
  | some node => do
    let opened ← ask
    if ¬ (opened.ok ∧ (node.fault = none ∨ node.fault = some .read)) then pure (-1)
    else emmcAttempts device data 2 0

def writeToPartition (data : Bytes) (target : Path) : Op Int :=
  match partitionOf (tokens target) with
  | .stuck => if tokens target = [] then stuck else pure (-1)
  | .err _ => pure (-1)
  | .ok (.mtd name) => writeMtd name data
  | .ok (.emmc device) => writeEmmc device data

/-! ## What a write touches -/

section Frames
variable {paths names : Path → Prop}

theorem mtdGiveUp_frame {name : Path} (touched : names name) : Keeps (Frame paths names) (mtdGiveUp name) :=
  keeps_bind keeps_ask fun _ => keeps_bind (keeps_modify (disturbMtd_frame touched _)) fun _ => keeps_pure _
private theorem writeMtd_frame {name : Path} (touched : names name) (data : Bytes) :
    Keeps (Frame paths names) (writeMtd name data) := by
  refine keeps_bind keeps_get fun s => ?_
  cases s.mtd name with
  | none => exact keeps_pure _
  | some mtd =>
    refine keeps_bind keeps_ask fun _ => keeps_ite (fun _ => keeps_pure _) fun _ => ?_
    refine keeps_bind keeps_ask fun _ => keeps_bind (keeps_modify (disturbMtd_frame touched _)) fun _ =>
      keeps_ite (fun _ => mtdGiveUp_frame touched) fun _ => ?_
    refine keeps_bind keeps_ask fun _ => keeps_bind (keeps_modify (disturbMtd_frame touched _)) fun _ =>
      keeps_ite (fun _ => mtdGiveUp_frame touched) fun _ => ?_
    refine keeps_bind keeps_ask fun _ => keeps_ite (fun _ => ?_) fun _ => ?_
    · exact keeps_bind (keeps_modify (disturbMtd_frame touched _)) fun _ => keeps_pure _
    · exact keeps_bind (keeps_modify fun s => setMtd_frame touched s _) fun _ => keeps_pure _

private theorem readBlock_keeps (device : Path) (p toRead : Nat) (buffer : Bytes) :
    Keeps (@Eq Storage) (readBlock device p toRead buffer) := by
  refine keeps_iterate (fun buffer => keeps_ite (fun _ => ?_) fun _ => keeps_pure _) buffer
  refine keeps_bind keeps_ask fun answer => keeps_bind keeps_get fun s => ?_
  cases deviceData s device with
  | none => exact keeps_pure _
  | some contents =>
    exact keeps_ite (fun _ => keeps_pure _) fun _ => keeps_ite (fun _ => keeps_pure _) fun _ => keeps_pure _
private theorem emmcVerify_keeps (device : Path) (data : Bytes) (p : Nat) :
    Keeps (@Eq Storage) (emmcVerify device data p) := by
  refine keeps_iterate (fun p => keeps_ite (fun _ => ?_) fun _ => keeps_pure _) p
  refine keeps_bind (readBlock_keeps device p _ []) fun result => ?_
  cases result with
  | none => exact keeps_pure _
  | some buffer => exact keeps_ite (fun _ => keeps_pure _) fun _ => keeps_pure _

/-- Everything a write to a device does is to change what that file holds. -/
structure OnlyDevice (device : Path) (s t : Storage) : Prop where
  frame : Frame (Eq device) (fun _ => False) s t
  fault : (t.files device).map Node.fault = (s.files device).map Node.fault
  clean : (s.files device).map Node.dirty ≠ some true → (t.files device).map Node.dirty ≠ some true

instance {device : Path} : IsPreorder Storage (OnlyDevice device) where
  refl s := ⟨refl s, rfl, id⟩
  trans _ _ _ first second := ⟨IsTrans.trans _ _ _ first.frame second.frame, second.fault.trans first.fault,
    fun clean => second.clean (first.clean clean)⟩
private theorem onlyDevice_of_same {device : Path} {α : Type} {p : Op α} (same : Keeps (@Eq Storage) p) :
    Keeps (OnlyDevice device) p := by
  intro s as
  rw [← same s as]
  exact refl s
theorem onlyDevice_setFile {device : Path} {change : Node → Node} (fault : ∀ node, (change node).fault = node.fault)
    (dirty : ∀ node, (change node).dirty = true → node.dirty = true) (s : Storage) :
    OnlyDevice device s (s.setFile device ((s.files device).map change)) := by
  refine ⟨setFile_frame rfl s _,?_,?_⟩
  · cases held : s.files device with
    | none => simp
    | some node => simp [fault]
  cases held : s.files device with
  | none => simp
  | some node =>
    intro clean changed
    simp only [setFile_same,Option.map_some,Option.some.injEq] at changed
    exact clean (by simp [dirty node changed])
theorem emmcWrite_onlyDevice (device : Path) (len start : Nat) : Keeps (OnlyDevice device) (emmcWrite device len start) := by
  refine keeps_iterate (fun start => keeps_ite (fun _ => ?_) fun _ => keeps_pure _) start
  refine keeps_bind keeps_ask fun answer =>
    keeps_bind (keeps_modify (onlyDevice_setFile (fun _ => rfl) fun _ => id)) fun _ =>
    keeps_ite (fun _ => keeps_pure _) fun _ => keeps_ite (fun _ => keeps_pure _) fun _ => keeps_pure _
theorem fsync_onlyDevice (device : Path) : Keeps (OnlyDevice device) (fsync device) :=
  keeps_bind keeps_ask fun _ => keeps_modify (onlyDevice_setFile (fun _ => rfl) fun _ => by simp)
private theorem emmcAttempts_onlyDevice (device : Path) (data : Bytes) (left start : Nat) :
    Keeps (OnlyDevice device) (emmcAttempts device data left start) := by
  induction left generalizing start with
  | zero => exact keeps_pure _
  | succ left ih =>
    refine keeps_bind (emmcWrite_onlyDevice device _ start) fun ok => keeps_ite (fun _ => keeps_pure _) fun _ =>
      keeps_bind (fsync_onlyDevice device) fun _ =>
      keeps_bind (onlyDevice_of_same (emmcVerify_keeps device data 0)) fun verified => ?_
    cases verified with
    | same => exact keeps_bind keeps_ask fun _ => keeps_pure _
    | differs p => exact ih p
    | failed => exact keeps_pure _
private theorem writeEmmc_onlyDevice (device : Path) (data : Bytes) : Keeps (OnlyDevice device) (writeEmmc device data) := by
  refine keeps_bind keeps_get fun s => ?_
  cases s.files device with
  | none => exact keeps_pure _
  | some _ =>
    exact keeps_bind keeps_ask fun _ =>
      keeps_ite (fun _ => keeps_pure _) fun _ => emmcAttempts_onlyDevice device data 2 0

/-- What a write to the partition that a name stands for does: nothing elsewhere, and
    no file that waits to be synced. -/
structure OnlyPartition (name : Path) (s t : Storage) : Prop where
  frame : Frame (fun p => partitionOf (tokens name) = .ok (.emmc p)) (fun n => partitionOf (tokens name) = .ok (.mtd n)) s t
  clean : ∀ path, (s.files path).map Node.dirty ≠ some true → (t.files path).map Node.dirty ≠ some true

instance {name : Path} : IsPreorder Storage (OnlyPartition name) where
  refl s := ⟨refl s, fun _ => id⟩
  trans _ _ _ first second :=
    ⟨IsTrans.trans _ _ _ first.frame second.frame, fun path clean => second.clean path (first.clean path clean)⟩
theorem writeToPartition_only (data : Bytes) (target : Path) :
    Keeps (OnlyPartition target) (writeToPartition data target) := by
  have unchanged (code : Int) : Keeps (OnlyPartition target) (pure code : Op Int) := keeps_pure code
  unfold writeToPartition
  cases found : partitionOf (tokens target) with
  | stuck => exact keeps_ite (fun _ => keeps_stuck) fun _ => unchanged _
  | err code => exact unchanged _
  | ok partition =>
    intro s as
    cases partition with
    | mtd name =>
      have frame : Frame (fun _ => False) (Eq name) s (writeMtd name data s as).state := writeMtd_frame rfl data s as
      refine ⟨frame_mono frame (fun _ h => h.elim) fun n same => ?_,fun path => ?_⟩
      · rw [found,same]
      · rw [show (writeMtd name data s as).state.files path = s.files path from frame.files path id]
        exact id
    | emmc device =>
      have only := writeEmmc_onlyDevice device data s as
      refine ⟨frame_mono only.frame (fun p same => ?_) fun _ h => h.elim,fun path => ?_⟩
      · rw [found,same]
      · by_cases same : device = path
        · exact same ▸ only.clean
        · rw [show (writeEmmc device data s as).state.files path = s.files path from only.frame.files path same]
          exact id

end Frames

/-! ## What a write that reports no error leaves -/

def Written (partition : Partition) (data : Bytes) (s : Storage) : Prop :=
  ∃ contents, openPartition s partition = some contents ∧ data <+: contents

theorem gave_up {P C Q : Storage → Prop} : Triple P (pure (-1) : Op Int) (fun code s => code = 0 → Q s) C :=
  triple_pure _ fun _ _ zero => absurd zero (by decide)
private theorem writeMtd_written (name : Path) (data : Bytes) :
    Triple (fun s => s.lossless name = true) (writeMtd name data)
      (fun code s => code = 0 → Written (.mtd name) data s) fun _ => True := by
  have closing : Triple (fun _ => True) (mtdGiveUp name) (fun code s => code = 0 → Written (.mtd name) data s)
      fun _ => True :=
    triple_ask_bind (fun _ h => h) fun _ =>
      triple_bind (triple_modify (Q := fun _ _ => True) fun _ h => h) fun _ => gave_up
  refine triple_bind (triple_get (Q := fun got _ => got.lossless name = true) fun _ h => h) fun s =>
    triple_assume fun _ lossless => triple_pre (B := fun _ => True) ?_ fun _ _ => trivial
  cases s.mtd name with
  | none => exact gave_up
  | some mtd =>
    refine triple_ask_bind (fun _ h => h) fun opened => triple_ite (fun _ => gave_up) fun opens => ?_
    refine triple_ask_bind (fun _ h => h) fun _ =>
      triple_bind (triple_modify fun _ h => h) fun _ => triple_ite (fun _ => closing) fun _ => ?_
    refine triple_ask_bind (fun _ h => h) fun _ =>
      triple_bind (triple_modify fun _ h => h) fun _ => triple_ite (fun _ => closing) fun _ => ?_
    refine triple_ask_bind (fun _ h => h) fun closed => triple_ite (fun _ => ?_) fun _ => ?_
    · exact triple_bind (triple_modify (Q := fun _ _ => True) fun _ h => h) fun _ => gave_up
    · refine triple_bind (triple_modify (Q := fun _ s => Written (.mtd name) data s) fun s _ => ?_) fun _ =>
        triple_pure _ fun _ written _ => written
      have usable : mtd.opens = true := (not_not.mp opens).2
      exact ⟨data ++ closed.bytes,by simp [openPartition,usable,lossless],prefix_append ..⟩

private theorem read_on {contents buffer : Bytes} {p : Nat} (start : buffer = (contents.drop p).take buffer.length) (count : Nat) :
    buffer ++ (contents.drop (p + buffer.length)).take count =
      (contents.drop p).take (buffer ++ (contents.drop (p + buffer.length)).take count).length := by
  rw [length_append,take_add,← start,drop_drop,length_take,take_eq_take_min]

theorem readBlock_spec (device : Path) (p toRead : Nat) (wanted : 0 < toRead) (held : Storage) :
    Triple (fun s => s = held) (readBlock device p toRead [])
      (fun result s => s = held ∧ ∀ buffer, result = some buffer →
        ∃ contents, deviceData held device = some contents ∧ buffer = (contents.drop p).take toRead) fun _ => True := by
  refine triple_pre (triple_iterate (I := fun buffer s => s = held ∧ buffer.length ≤ toRead ∧
    (buffer ≠ [] → ∃ contents, deviceData held device = some contents ∧ buffer = (contents.drop p).take buffer.length))
    (fun buffer => triple_ite (fun short => ?_) fun full => triple_pure _ ?_) (fun _ _ _ => trivial) [])
    fun s same => ⟨same,Nat.zero_le _,fun none => absurd rfl none⟩
  · refine triple_ask_bind (fun _ _ => trivial) fun answer =>
      triple_bind (triple_get (Q := fun got s => got = s ∧ _) fun s inv => ⟨rfl,inv⟩) fun s => ?_
    cases read : deviceData s device with
    | none => exact triple_pure _ fun _ inv => ⟨inv.1 ▸ inv.2.1,fun _ h => by cases h⟩
    | some contents =>
      refine triple_ite (fun _ => triple_pure _ ?_) fun _ => triple_ite (fun _ => triple_pure _ fun _ inv => inv.1 ▸ inv.2)
        fun _ => triple_pure _ fun _ inv => ⟨inv.1 ▸ inv.2.1,fun _ h => by cases h⟩
      rintro t ⟨rfl,rfl,bound,reads⟩
      refine ⟨rfl,by simp; omega,fun _ => ⟨contents,read,?_⟩⟩
      have start : buffer = (contents.drop p).take buffer.length := by
        by_cases empty : buffer = []
        · simp [empty]
        · obtain ⟨found,known,same⟩ := reads empty
          rw [read] at known
          cases known
          exact same
      exact read_on start _
  · rintro s ⟨rfl,bound,reads⟩
    have whole : buffer.length = toRead := by omega
    refine ⟨rfl,fun _ same => ?_⟩
    cases same
    rw [← whole]
    exact reads fun empty => by rw [empty] at whole; exact absurd whole (by simp; omega)

theorem emmcVerify_spec (device : Path) (data : Bytes) (held : Storage) :
    Triple (fun s => s = held) (emmcVerify device data 0)
      (fun verified s => s = held ∧ (verified = .same → data ≠ [] →
        ∃ contents, deviceData held device = some contents ∧ data <+: contents)) fun _ => True := by
  refine triple_pre (triple_iterate (I := fun p s => s = held ∧ (0 < p → ∃ contents,
    deviceData held device = some contents ∧ data.take p <+: contents))
    (fun p => triple_ite (fun more => ?_) fun finished => triple_pure _ ?_) (fun _ _ _ => trivial) 0)
    fun s same => ⟨same,fun h => absurd h (lt_irrefl 0)⟩
  · refine triple_assume fun s inv => ?_
    obtain ⟨rfl,seen⟩ := inv
    refine triple_bind (triple_conseq (readBlock_spec device p _ (by omega) s) (fun _ h => h) (fun _ _ h => h)
      fun _ h => h) fun result => ?_
    cases result with
    | none => exact triple_pure _ fun _ inv => ⟨inv.1,fun h => by cases h⟩
    | some buffer =>
      refine triple_ite (fun same => triple_pure _ ?_) fun _ => triple_pure _ fun _ inv => ⟨inv.1,fun h => by cases h⟩
      rintro t ⟨rfl,reads⟩
      refine ⟨rfl,fun _ => ?_⟩
      obtain ⟨contents,known,block⟩ := reads buffer rfl
      refine ⟨contents,known,?_⟩
      have before : data.take p = contents.take p := by
        rcases Nat.eq_zero_or_pos p with none | some
        · simp [none]
        obtain ⟨found,alike,starts⟩ := seen some
        rw [known] at alike
        cases alike
        rw [prefix_iff_eq_take] at starts
        rw [starts,length_take,Nat.min_eq_left more.le]
      have blocks : (data.drop p).take (min (data.length - p) 4096) = (contents.drop p).take (min (data.length - p) 4096) :=
        same.symm.trans block
      have upTo : data.take (p + 4096) = contents.take (p + min (data.length - p) 4096) := by
        rw [take_add,take_add,← before,← blocks,← length_drop,Nat.min_comm,← take_eq_take_min]
      rw [upTo]
      exact List.take_prefix ..
  · rintro s ⟨rfl,seen⟩
    refine ⟨rfl,fun _ some => ?_⟩
    have whole : data.take p = data := take_of_length_le (by omega)
    rw [whole] at seen
    exact seen (Nat.pos_of_ne_zero fun zero => some (eq_nil_of_length_eq_zero (by omega)))

theorem openPartition_of_deviceData {s : Storage} {device : Path} {contents : Bytes}
    (read : deviceData s device = some contents) : openPartition s (.emmc device) = some contents := by
  unfold deviceData at read
  cases held : s.files device with
  | none => rw [held] at read; cases read
  | some node =>
    rw [held] at read
    by_cases sound : node.fault = none
    · simpa [openPartition,held,sound] using read
    · simp [sound] at read

def Opens (device : Path) (s : Storage) : Prop :=
  (s.files device).map Node.fault = some none ∨ (s.files device).map Node.fault = some (some .read)

theorem Opens.openPartition {device : Path} {s : Storage} (opens : Opens device s) :
    ∃ contents, openPartition s (.emmc device) = some contents := by
  cases held : s.files device with
  | none => rcases opens with h | h <;> rw [held] at h <;> cases h
  | some node =>
    rcases opens with h | h <;> rw [held] at h <;> simp at h <;> simp [Load.openPartition,held,h]

theorem emmcAttempts_written (device : Path) (data : Bytes) (left start : Nat) :
    Triple (Opens device) (emmcAttempts device data left start)
      (fun code s => code = 0 → Written (.emmc device) data s) fun _ => True := by
  have opened (s t : Storage) (only : OnlyDevice device s t) (opens : Opens device s) : Opens device t := by
    unfold Opens
    rwa [only.fault]
  induction left generalizing start with
  | zero => exact gave_up
  | succ left ih =>
    refine triple_bind (triple_conseq (triple_keeps (emmcWrite_onlyDevice device _ start) opened) (fun _ h => h)
      (fun _ _ h => h) fun _ _ => trivial) fun ok => triple_ite (fun _ => gave_up) fun _ => ?_
    refine triple_bind (triple_conseq (triple_keeps (fsync_onlyDevice device) opened) (fun _ h => h)
      (fun _ _ h => h) fun _ _ => trivial) fun _ => triple_assume fun s opens => ?_
    refine triple_bind (emmcVerify_spec device data s) fun verified => ?_
    cases verified with
    | failed => exact gave_up
    | differs p => exact triple_pre (ih p) fun t at_ => by rw [at_.1]; exact opens
    | same =>
      refine triple_ask_bind (fun _ _ => trivial) fun closed => triple_pure _ ?_
      rintro t ⟨rfl,seen⟩ _
      by_cases empty : data = []
      · obtain ⟨contents,known⟩ := opens.openPartition
        exact ⟨contents,known,empty ▸ List.nil_prefix⟩
      · obtain ⟨contents,known,starts⟩ := seen rfl empty
        exact ⟨contents,openPartition_of_deviceData known,starts⟩

theorem writeEmmc_written (device : Path) (data : Bytes) :
    Triple (fun _ => True) (writeEmmc device data) (fun code s => code = 0 → Written (.emmc device) data s)
      fun _ => True := by
  refine triple_bind (triple_get (Q := fun got s => got = s) fun _ _ => rfl) fun s => ?_
  cases held : s.files device with
  | none => exact gave_up
  | some node =>
    refine triple_ask_bind (fun _ _ => trivial) fun opened =>
      triple_ite (fun _ => gave_up) fun sound => triple_pre (emmcAttempts_written device data 2 0) ?_
    rintro t rfl
    have usable := (not_not.mp sound).2
    simpa [Opens,held] using usable

/-- If the target is an MTD partition, it gives back what was written. -/
def Lossless (target : Path) (s : Storage) : Prop :=
  ∀ name, partitionOf (tokens target) = .ok (.mtd name) → s.lossless name = true

theorem writeToPartition_written (data : Bytes) (target : Path) :
    Triple (Lossless target) (writeToPartition data target) (fun code s => code = 0 →
      ∃ partition, partitionOf (tokens target) = .ok partition ∧ Written partition data s) fun _ => True := by
  unfold writeToPartition
  cases found : partitionOf (tokens target) with
  | stuck => exact triple_ite (fun _ => triple_stuck fun _ _ => trivial) fun _ => gave_up
  | err code => exact gave_up
  | ok partition =>
    cases partition with
    | mtd name =>
      exact triple_conseq (writeMtd_written name data) (fun _ lossless => lossless name found)
        (fun _ _ written zero => ⟨_,rfl,written zero⟩) fun _ h => h
    | emmc device =>
      exact triple_conseq (writeEmmc_written device data) (fun _ _ => trivial)
        (fun _ _ written zero => ⟨_,rfl,written zero⟩) fun _ h => h

end Recovery.Partition
