import Recovery.FreeCache
import Recovery.Imgpatch
import Recovery.Partition

/-!
`applypatch.c`: a target is made from its source, or from the copy of the source saved on `/cache`,
by one of several patches.
-/
namespace Recovery.Applypatch
open Memory Program Program.Prog Storage Load FreeCache Option
open Imgpatch Bspatch Recovery.Partition

variable (L : Libs)

/-! ## Sinks -/

def fileSinkLoop (path : Path) : Nat → Bytes → Nat → Op Int
  | 0, _, done => pure done
  | fuel + 1, data, done =>
    if data = [] then pure done
    else do
      let wrote ← write path data
      if wrote ≤ 0 then pure done
      else fileSinkLoop path fuel (data.drop wrote.toNat) (done + wrote.toNat)

/-- `FileSink`: writes until everything is written or a write fails. -/
def fileSinkCall (path : Path) (data : Bytes) : Op Int := fileSinkLoop path data.length data 0

def stored (path : Path) (s : Storage) : Bytes := ((s.files path).map Node.data).getD []

private theorem write_stored {path : Path} {data : Bytes} {s : Storage} {as : List Answer} {n : Int}
    (returned : (write path data s as).value = some n) :
    (n = -1 ∨ 0 ≤ n ∧ n ≤ data.length) ∧
      stored path (write path data s as).state = stored path s ++ data.take n.toNat := by
  match as with
  | [] => cases returned
  | answer :: rest =>
    match file : s.files path, ok : answer.ok with
    | some node, true =>
      rw [write_taken file ok] at returned ⊢
      obtain rfl := some.inj returned
      refine ⟨.inr ⟨by omega,by omega⟩,?_⟩
      simp only [stored,setFile_same,map_some,getD_some,file,Int.toNat_natCast,List.append_cancel_left_eq,
        List.take_eq_take_iff,inf_le_right,inf_of_le_left]
    | none, _ =>
      rw [write_refused (.inl file)] at returned ⊢
      obtain rfl := some.inj returned
      simp
    | some _, false =>
      rw [write_refused (.inr ok)] at returned ⊢
      obtain rfl := some.inj returned
      simp

theorem fileSinkLoop_stored {path : Path} {fuel : Nat} {data : Bytes} {done : Nat} {s : Storage} {as : List Answer}
    {n : Int} (returned : (fileSinkLoop path fuel data done s as).value = some n) :
    ∃ m : Nat, n = done + m ∧ m ≤ data.length ∧
      stored path (fileSinkLoop path fuel data done s as).state = stored path s ++ data.take m := by
  induction fuel generalizing data done s as with
  | zero =>
    simp only [fileSinkLoop,pure_run,some.injEq] at returned ⊢
    exact ⟨0,by simp [returned]⟩
  | succ fuel ih =>
    unfold fileSinkLoop at returned ⊢
    by_cases empty : data = []
    · simp only [empty,↓reduceIte,pure_run,some.injEq] at returned ⊢
      exact ⟨0,by simp [returned]⟩
    simp only [empty,↓reduceIte] at returned ⊢
    obtain ⟨wrote,called,rest⟩ := bind_returns returned
    obtain ⟨range,law⟩ := write_stored called
    rw [rest] at returned ⊢
    by_cases failed : wrote ≤ 0
    · simp only [failed,↓reduceIte,pure_run,some.injEq] at returned ⊢
      refine ⟨0,by simp [returned],by simp,?_⟩
      rw [law,show wrote.toNat = 0 by omega]
    simp only [failed,↓reduceIte] at returned ⊢
    obtain ⟨m,total,bound,after⟩ := ih returned
    rw [List.length_drop] at bound
    refine ⟨wrote.toNat + m,by omega,by omega,?_⟩
    rw [after,law,List.take_add,List.append_assoc]

def fileSink (path : Path) : Sink Storage Answer where
  call := fileSinkCall path
  stored := stored path
  stores := by
    intro data s as n returned
    obtain ⟨m, total, -, after⟩ := fileSinkLoop_stored (show (fileSinkLoop path _ data 0 s as).value = some n from returned)
    have count : n.toNat = m := by omega
    rw [count]
    exact after

def memorySink (size : Nat) : Sink Bytes Unit where
  call data := do
    let buffer ← get
    if (size : Int) - buffer.length < data.length then pure (-1)
    else do
      modify (· ++ data)
      pure data.length
  stored := id
  stores := by
    intro data buffer as n returned
    by_cases full : (size : Int) - buffer.length < data.length
    · simp only [bind_run, get_run, next, full, ↓reduceIte, pure_run, Option.some.injEq] at returned ⊢
      simp [← returned]
    · simp only [bind_run, get_run, next, full, ↓reduceIte, modify_run, pure_run, Option.some.injEq] at returned ⊢
      simp [← returned]

/-! ## Saving -/

/-- `FileSink` on the data of some contents. A missing buffer makes the first write
    fail, and nothing is written. -/
def sinkContents (path : Path) (file : FileContents) : Op Int :=
  match file.data with
  | some data => fileSinkCall path data
  | none =>
    if 0 < file.size then do
      let _ ← ask
      pure 0
    else pure 0

def saveFileContents (filename : Path) (file : FileContents) : Op Int := do
  if ¬ (← openTrunc filename) then pure (-1)
  else do
    let written ← sinkContents filename file
    if written ≠ file.size then pure (-1)
    else do
      fsync filename
      if ¬ (← chmod filename file.stat.mode) then pure (-1)
      else if ¬ (← chown filename file.stat.uid file.stat.gid) then pure (-1)
      else pure 0

/-- The copy of the source on `/cache`; false when there is no room or it cannot be
    written. -/
def backUp (file : FileContents) : Op Bool := do
  if (← makeFreeSpaceOnCache (unsigned 64 file.size)) < 0 then pure false
  else if (← saveFileContents cacheTempSource file) < 0 then pure false
  else pure true

/-! ## The request -/

/-- The type of a `Value`. -/
inductive ValueType where
  | string
  | blob
  deriving DecidableEq, Repr

/-- `Value`. -/
structure Value where
  type : ValueType
  data : Bytes
  deriving DecidableEq, Repr

/-- The arguments of `applypatch`: a target, its source, and one patch for each
    listed SHA-1 of the source. -/
structure Request where
  sourceFilename : Path
  targetFilename : Path
  targetSha1Str : Path
  targetSize : Nat
  patches : List (Path × Value)
  bonusData : Option Value

def Request.sums (r : Request) : List Path := r.patches.map Prod.fst
def Request.target (r : Request) : Path := if r.targetFilename = ['-'] then r.sourceFilename else r.targetFilename

/-- What is chosen to make the target from: loaded contents and their patch. -/
structure Choice where
  file : FileContents
  patch : Value

inductive PatchFormat where
  | bsdiff
  | imgdiff
  deriving DecidableEq, Repr

def patchFormat (patch : Bytes) : Option PatchFormat :=
  if patch.take 8 = bsdiffMagic then some .bsdiff
  else if patch.take 8 = imgdiffMagic then some .imgdiff
  else none

def applyFormat {σ A : Type} (format : PatchFormat) (data patch : Bytes) (bonus : Option Value) (sink : Sink σ A) :
    Prog σ A (Int × ShaCtx) :=
  match format with
  | .bsdiff => applyBSDiffPatch L ⟨data, 0, data.length⟩ patch 0 sink []
  | .imgdiff => applyImagePatch L data patch sink [] (bonus.map Value.data)

/-! ## A file target -/

/-- The top directory of a path, which `statfs` is asked about; an empty path is
    read past its end. -/
def targetFs : Path → Option Path
  | [] => none
  | first :: rest => some (first :: rest.takeWhile (· ≠ '/'))

/-- The patched output goes here before it replaces the target. -/
def outname (target : Path) : Path := target ++ ".patch".toList

/-- Whether the target's file system has room for the patched file; the last round does
    not ask. -/
def enoughSpace (fs : Path) (targetSize retry : Nat) : Op Bool :=
  if retry > 0 then do
    let freeSpace ← freeSpaceForFile fs
    pure (decide (freeSpace > 256 <<< 10) && decide (freeSpace > unsigned 64 (targetSize * 3) / 2))
  else pure false

/-- How a round of the loop of `GenerateTarget` ends: it returns, it has the output
    with the context, or the patch failed and there is another round. -/
inductive RoundEnd where
  | fail
  | done (madeCopy : Bool) (ctx : ShaCtx)
  | again (madeCopy : Bool) (ctx : ShaCtx)

/-- The second half of a round: the patch is applied to the chosen data. -/
def applyRound (choice : Choice) (target : Path) (bonus : Option Value) (retry : Nat) (madeCopy : Bool) :
    Op RoundEnd := do
  if choice.patch.type ≠ .blob then pure .fail
  else if ¬ (← openTrunc (outname target)) then pure .fail
  else match patchFormat choice.patch.data with
    | none => pure .fail
    | some format => do
      let data ← need choice.file.data
      let (code, ctx) ← applyFormat L format data choice.patch.data bonus (fileSink (outname target))
      fsync (outname target)
      if code ≠ 0 then
        if retry = 0 then pure .fail
        else do
          unlink (outname target)
          pure (.again madeCopy ctx)
      else pure (.done madeCopy ctx)

/-- A round of the loop for a file target. When there is no room the source is moved
    to `/cache`, unless the copy there is what the target is made from. -/
def fileRound (r : Request) (fs : Path) (choice : Choice) (fromSource : Bool) (retry : Nat) (madeCopy : Bool) :
    Op RoundEnd := do
  let enough ← enoughSpace fs r.targetSize retry
  let retry := if enough then retry else 0
  if ¬ enough ∧ fromSource then
    if isPartition r.sourceFilename then pure .fail
    else if ¬ (← backUp choice.file) then pure .fail
    else do
      unlink r.sourceFilename
      let _ ← freeSpaceForFile fs
      applyRound L choice r.target r.bonusData retry true
  else applyRound L choice r.target r.bonusData retry madeCopy

def replaceTarget (r : Request) (targetSha1 : Bytes) (choice : Choice) (madeCopy : Bool) (ctx : ShaCtx) : Op Int := do
  let out := outname r.target
  if L.sha1 ctx ≠ targetSha1 then pure 1
  else if ¬ (← chmod out choice.file.stat.mode) then pure 1
  else if ¬ (← chown out choice.file.stat.uid choice.file.stat.gid) then pure 1
  else if ¬ (← rename out r.target) then pure 1
  else do
    if madeCopy then unlink cacheTempSource else pure ()
    pure 0

def fileLoop (r : Request) (fs : Path) (targetSha1 : Bytes) (choice : Choice) (fromSource : Bool) :
    Nat → Bool → Op Int
  | 0, madeCopy => do
    match ← fileRound L r fs choice fromSource 0 madeCopy with
    | .fail => pure 1
    | .done madeCopy ctx => replaceTarget L r targetSha1 choice madeCopy ctx
    | .again madeCopy ctx => replaceTarget L r targetSha1 choice madeCopy ctx
  | retry + 1, madeCopy => do
    match ← fileRound L r fs choice fromSource (retry + 1) madeCopy with
    | .fail => pure 1
    | .done madeCopy ctx => replaceTarget L r targetSha1 choice madeCopy ctx
    | .again madeCopy _ => fileLoop r fs targetSha1 choice fromSource retry madeCopy

/-! ## A partition target -/

def applyInMemory (choice : Choice) (format : PatchFormat) (bonus : Option Value) (size : Nat) :
    Option (Int × ShaCtx × Bytes) := do
  let data ← choice.file.data
  let o := applyFormat L format data choice.patch.data bonus (memorySink size) [] []
  let (code, ctx) ← o.value
  some (code, ctx, o.state)

/-- `GenerateTarget` for a partition target. The source file is backed up also when
    the target is made from the copy. -/
def partitionTarget (r : Request) (targetSha1 : Bytes) (sourceFile : FileContents) (choice : Choice) : Op Int := do
  if ¬ (← backUp sourceFile) then pure 1
  else if choice.patch.type ≠ .blob then pure 1
  else if ¬ L.room r.targetSize then pure 1
  else match patchFormat choice.patch.data with
    | none => pure 1
    | some format => do
      let (code, ctx, buffer) ← need (applyInMemory L choice format r.bonusData r.targetSize)
      if code ≠ 0 then pure 1
      else if L.sha1 ctx ≠ targetSha1 then pure 1
      else if (← writeToPartition buffer r.target) ≠ 0 then pure 1
      else do
        unlink cacheTempSource
        pure 0

def generateTarget (r : Request) (targetSha1 : Bytes) (sourceFile : FileContents) (choice : Choice)
    (fromSource : Bool) : Op Int := do
  let fs ← need (targetFs r.target)
  if isPartition r.target then partitionTarget L r targetSha1 sourceFile choice
  else fileLoop L r fs targetSha1 choice fromSource 1 false

/-! ## The entry points -/

/-- What `applypatch` decides before it changes anything. -/
inductive Plan where
  /-- It returns at once. -/
  | finished (code : Int)
  /-- It generates the target, from the source or from the copy. -/
  | generate (targetSha1 : Bytes) (sourceFile : FileContents) (choice : Choice) (fromSource : Bool)

def patchFor (r : Request) (file : FileContents) : Option Value :=
  match file.data, findMatchingPatch file.sha1 r.sums with
  | some _, some i => (r.patches[i]?).map Prod.snd
  | _, _ => none

/-- The source as `applypatch` has it: the target's contents when they are the same
    file and could be loaded. -/
def loadSource (s : Storage) (r : Request) (file : FileContents) : Loaded :=
  if file.data = none ∨ r.target ≠ r.sourceFilename then loadFileContents L s r.sourceFilename file.freed
  else some (0, file)

/-- The part of `applypatch` before `GenerateTarget`. The two `FileContents` are not
    initialised; a load may leave parts of them as they were. -/
def plan (s : Storage) (r : Request) (junk : FileContents) : Option Plan :=
  match parseSha1 r.targetSha1Str with
  | none => some (.finished 1)
  | some targetSha1 => do
    let (code, file) ← loadFileContents L s r.target junk.freed
    if code = 0 ∧ file.sha1 = targetSha1 then some (.finished 0)
    else do
      let (_, sourceFile) ← loadSource L s r file
      match patchFor r sourceFile with
      | some patch => some (.generate targetSha1 sourceFile ⟨sourceFile, patch⟩ true)
      | none => do
        let (code, copyFile) ← loadFileContents L s cacheTempSource junk.freed
        if code < 0 then some (.finished 1)
        else match patchFor r copyFile with
          | none => some (.finished 1)
          | some patch => some (.generate targetSha1 sourceFile.freed ⟨copyFile, patch⟩ false)

def applypatch (r : Request) (junk : FileContents) : Op Int := do
  let s ← get
  match ← need (plan L s r junk) with
  | .finished code => pure code
  | .generate targetSha1 sourceFile choice fromSource => generateTarget L r targetSha1 sourceFile choice fromSource

/-- `applypatch_check`; none when a load never returns. -/
def applypatchCheck (s : Storage) (filename : Path) (sums : List Path) (junk : FileContents) : Option Int := do
  let (filestate, file) ← loadFileContents L s filename junk.freed
  if filestate = -enoent then some (-enoent)
  else if filestate ≠ 0 ∨ (sums ≠ [] ∧ findMatchingPatch file.sha1 sums = none) then do
    let (code, file) ← loadFileContents L s cacheTempSource file.freed
    if code ≠ 0 then some 1
    else if findMatchingPatch file.sha1 sums = none then some 1
    else some 0
  else some 0

end Recovery.Applypatch
