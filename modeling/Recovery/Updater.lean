import Recovery.Edify
import Recovery.Load

/-!
The functions of the updater (updater/install.c), the table of functions, and the evaluation
of expressions. The functions that take any number of arguments are modelled in full. Of the
others the model has how they get their arguments; what they then do is one action, whose result
the device gives.
-/
namespace Recovery.Updater
open Memory Program Program.Prog Edify

variable (sha1 : Bytes → Bytes)

/-! ## Functions with a fixed number of arguments -/

def work (fn : Function) (args : List Value) : Run (Option Value) := do
  let answer ← act (.work fn (args.map Value.text))
  pure answer.value
/-- Reads `count` strings and works on them. -/
def readAndWork (fn : Function) (argv : Args) (count : Nat) : Run (Option Value) := do
  match ← ReadArgs argv count with
  | none => pure none
  | some args => work fn args
def readAllAndWork (fn : Function) (argv : Args) : Run (Option Value) := do
  match ← ReadVarArgs argv 0 with
  | none => pure none
  | some args => work fn args

/-- "%s() expects N args, got %d". -/
def expects (name what : Bytes) (argc : Nat) : Run (Option Value) :=
  ErrorAbort (name ++ ascii "() expects " ++ what ++ ascii ", got " ++ decimal argc)
def fixedArgs (fn : Function) (count : Nat) (what : String) (name : Bytes) (argv : Args) : Run (Option Value) :=
  if argv.length ≠ count then expects name (ascii what) argv.length else readAndWork fn argv count

def MountFn (name : Bytes) (argv : Args) : Run (Option Value) := fixedArgs .MountFn 4 "4 args" name argv
def IsMountedFn (name : Bytes) (argv : Args) : Run (Option Value) := fixedArgs .IsMountedFn 1 "1 arg" name argv
def UnmountFn (name : Bytes) (argv : Args) : Run (Option Value) := fixedArgs .UnmountFn 1 "1 arg" name argv
def FormatFn (name : Bytes) (argv : Args) : Run (Option Value) := fixedArgs .FormatFn 5 "5 args" name argv
def RenameFn (name : Bytes) (argv : Args) : Run (Option Value) := fixedArgs .RenameFn 2 "2 args" name argv
def ShowProgressFn (name : Bytes) (argv : Args) : Run (Option Value) := fixedArgs .ShowProgressFn 2 "2 args" name argv
def SetProgressFn (name : Bytes) (argv : Args) : Run (Option Value) := fixedArgs .SetProgressFn 1 "1 arg" name argv
def PackageExtractDirFn (name : Bytes) (argv : Args) : Run (Option Value) :=
  fixedArgs .PackageExtractDirFn 2 "2 args" name argv
def PackageExtractFileFn (name : Bytes) (argv : Args) : Run (Option Value) :=
  if argv.length ≠ 1 ∧ argv.length ≠ 2 then expects name (ascii "1 or 2 args") argv.length
  else if argv.length = 2 then readAndWork .PackageExtractFileFn argv 2
  else readAndWork .PackageExtractFileFn argv 1
def SetMetadataFn (name : Bytes) (argv : Args) : Run (Option Value) :=
  if argv.length % 2 ≠ 1 then expects name (ascii "an odd number of arguments") argv.length
  else readAllAndWork .SetMetadataFn argv
def GetPropFn (name : Bytes) (argv : Args) : Run (Option Value) := fixedArgs .GetPropFn 1 "1 arg" name argv
def FileGetPropFn (argv : Args) : Run (Option Value) := readAndWork .FileGetPropFn argv 2
def WriteRawImageFn (argv : Args) : Run (Option Value) := do
  match ← ReadValueArgs argv 2 with
  | none => pure none
  | some args => work .WriteRawImageFn args
def ApplyPatchSpaceFn (argv : Args) : Run (Option Value) := readAndWork .ApplyPatchSpaceFn argv 1
def UIPrintFn (argv : Args) : Run (Option Value) := readAllAndWork .UIPrintFn argv
def WipeCacheFn (name : Bytes) (argv : Args) : Run (Option Value) :=
  if argv.length ≠ 0 then expects name (ascii "no args") argv.length else work .WipeCacheFn []
def CollectBackupDataFn (name : Bytes) (argv : Args) : Run (Option Value) :=
  if argv.length < 1 then
    ErrorAbort (name ++ ascii "(): expected at least 1 arg, got " ++ decimal argv.length)
  else readAndWork .CollectBackupDataFn argv 1
def RunProgramFn (name : Bytes) (argv : Args) : Run (Option Value) :=
  if argv.length < 1 then ErrorAbort (name ++ ascii "() expects at least 1 arg") else readAllAndWork .RunProgramFn argv
def ReadFileFn (name : Bytes) (argv : Args) : Run (Option Value) := fixedArgs .ReadFileFn 1 "1 arg" name argv
def RebootNowFn (name : Bytes) (argv : Args) : Run (Option Value) := fixedArgs .RebootNowFn 2 "2 args" name argv
def SetStageFn (name : Bytes) (argv : Args) : Run (Option Value) := fixedArgs .SetStageFn 2 "2 args" name argv
/-- A second argument is accepted, and not read. -/
def GetStageFn (name : Bytes) (argv : Args) : Run (Option Value) :=
  if argv.length ≠ 1 ∧ argv.length ≠ 2 then expects name (ascii "1 or 2 args") argv.length
  else readAndWork .GetStageFn argv 1

/-! ## Functions with any number of arguments -/

/-- The loop that frees the paths before one that is `NULL`. It counts the wrong variable up, so
    it frees the first path again and again. -/
def deleteUnwind : List Value → Run (Option (List Value))
  | [] => pure none
  | first :: _ => do
    free first
    free first
    push .endless
    stuck
def deleteRead (argv : Args) : Nat → Nat → List Value → Run (Option (List Value))
  | 0, _, paths => pure (some paths)
  | count + 1, i, paths => do
    match ← Evaluate argv i with
    | some path => deleteRead argv count (i + 1) (paths ++ [path])
    | none => deleteUnwind paths
def deletePaths (recursive : Bool) : List Value → Nat → Run (Option Value)
  | [], success => StringValue (decimal success)
  | path :: rest, success => do
    let answer ← act (if recursive then .dirUnlinkHierarchy path.text else .unlink path.text)
    free path
    deletePaths recursive rest (if answer.number = 0 then success + 1 else success)
def DeleteFn (name : Bytes) (argv : Args) : Run (Option Value) := do
  match ← deleteRead argv argv.length 0 [] with
  | none => pure none
  | some paths => deletePaths (name == ascii "delete_recursive") paths 0

def ENOENT : Int := 2
def EEXIST : Int := 17

def lastSlash (path : Bytes) : Option Nat :=
  (List.range path.length).reverse.find? fun p => 0 < p && path[p]? == some 47
/-- Whether the parent directories are there in the end, and what the path then reads: it stays
    cut when the parents of a parent fail. The path gets shorter, so `fuel` is its length. -/
def make_parents : Nat → Bytes → Run (Bool × Bytes)
  | 0, path => pure (true, path)
  | fuel + 1, path =>
    match lastSlash path with
    | none => pure (true, path)
    | some p => do
      let (made, cut) ← make_parents fuel (path.take p)
      if made then do
        let answer ← act (.mkdir (path.take p))
        pure (answer.number = 0 ∨ answer.number = -EEXIST, path)
      else pure (false, cut)
/-- Makes the links; `bad` counts what failed. -/
def symlinkLoop (name target : Bytes) : List Value → Nat → Run (Option Value)
  | [], bad => if bad > 0 then ErrorAbort (name ++ ascii ": some symlinks failed") else StringValue []
  | src :: rest, bad => do
    let unlinked ← act (.unlink src.text)
    let (made, path) ← make_parents src.text.length src.text
    let linked ← act (.symlink target path)
    free src
    symlinkLoop name target rest (bad + (if unlinked.number < 0 ∧ unlinked.number ≠ -ENOENT then 1 else 0) +
      (if made then 0 else 1) + (if linked.number < 0 then 1 else 0))
def SymlinkFn (name : Bytes) (argv : Args) : Run (Option Value) :=
  if argv.length = 0 then expects name (ascii "1+ args") argv.length
  else do
    match ← Evaluate argv 0 with
    | none => pure none
    | some target =>
      match ← ReadVarArgs argv 1 with
      | none =>
        free target
        pure none
      | some srcs => symlinkLoop name target.text srcs 0

def backedUp (path : Bytes) : Run Bool := do
  let s ← get
  pure (s.bakfiles.contains path)

def badPatch (name : Bytes) : Nat → List Value → Option Bytes
  | i, sha :: patch :: rest =>
    if sha.type ≠ .VAL_STRING then some (name ++ ascii "(): sha-1 #" ++ decimal i ++ ascii " is not string")
    else if patch.type ≠ .VAL_BLOB then some (name ++ ascii "(): patch #" ++ decimal i ++ ascii " is not blob")
    else badPatch name (i + 1) rest
  | _, _ => none
def pairs : List Value → List (Value × Value)
  | sha :: patch :: rest => (sha, patch) :: pairs rest
  | _ => []
/-- `ApplyPatchFn` once all arguments are read. The strings of the hashes are never freed. -/
def applyPatches (name source target sum : Bytes) (size : Int) (patches : List Value) : Run (Option Value) :=
  match badPatch name 0 patches with
  | some message => do
    let result ← ErrorAbort message
    freeAll patches
    pure result
  | none => do
    let answer ← act (.applypatch source target sum size ((pairs patches).map fun p => (p.1.text, p.2.text)))
    freeAll ((pairs patches).map Prod.snd)
    truth (answer.number = 0)
/-- `ApplyPatchFn` with its first four arguments. The array of patches is used without a look at
    whether it is `NULL`. -/
def applyPatch (name : Bytes) (argv : Args) (source target sum size : Value) : Run (Option Value) := do
  if ← backedUp source.text then
    let _ ← act (.ui_print (ascii "Skipping update of modified file " ++ source.text))
    truth true
  else if (strtol size.text).2 = size.text then
    let result ← ErrorAbort (name ++ ascii "(): can't parse \"" ++ size.text ++ ascii "\" as byte count")
    freeAll [source, target, sum, size]
    pure result
  else
    match ← ReadValueVarArgs argv 4 with
    | none =>
      push .wild
      stuck
    | some patches => applyPatches name source.text target.text sum.text (strtol size.text).1 patches
def ApplyPatchFn (name : Bytes) (argv : Args) : Run (Option Value) :=
  if argv.length < 6 ∨ argv.length % 2 = 1 then
    ErrorAbort (name ++ ascii "(): expected at least 6 args and an even number, got " ++ decimal argv.length)
  else do
    match ← ReadArgs argv 4 with
    | some [source, target, sum, size] => applyPatch name argv source target sum size
    | _ => pure none

/-- The result of the check; a file that is gone goes to the backup table, if that is used. -/
def checkResult (file : Bytes) (result : Int) : Run Int := do
  let s ← get
  if result = -ENOENT ∧ s.bakfiles ≠ [] then
    modify fun s => { s with bakfiles := s.bakfiles ++ [file] }
    pure 0
  else pure result
/-- `ApplyPatchCheckFn` with its first argument. The array of hashes is used without a look at
    whether it is `NULL`. -/
def applyPatchCheck (argv : Args) (file : Value) : Run (Option Value) := do
  if ← backedUp file.text then truth true
  else
    let sha1s ← ReadVarArgs argv 1
    let answer ← act (.applypatch_check file.text (sha1s.map (·.map Value.text)))
    let result ← checkResult file.text answer.number
    match sha1s with
    | none =>
      push .wild
      stuck
    | some sums =>
      freeAll sums
      truth (result = 0)
def ApplyPatchCheckFn (name : Bytes) (argv : Args) : Run (Option Value) :=
  if argv.length < 1 then
    ErrorAbort (name ++ ascii "(): expected at least 1 arg, got " ++ decimal argv.length)
  else do
    match ← ReadArgs argv 1 with
    | some [file] => applyPatchCheck argv file
    | _ => pure none

def hexDigits : Bytes := ascii "0123456789abcdef"
def PrintSha1 (digest : Bytes) : Bytes :=
  digest.flatMap fun b => [hexDigits.getD (b.toNat / 16) 0, hexDigits.getD (b.toNat % 16) 0]
def parsedSha1 (text : Bytes) : Option Bytes := Load.parseSha1 (text.map fun c => Char.ofNat c.toNat)
/-- Looks for an argument that is the hash, and frees the others. -/
def sha1Loop (digest : Bytes) : List Value → Run (Option Value)
  | [] => StringValue []
  | v :: rest =>
    if v.type = .VAL_STRING ∧ parsedSha1 v.text = some digest then do
      freeAll rest
      pure (some v)
    else do
      free v
      sha1Loop digest rest
def Sha1CheckFn (name : Bytes) (argv : Args) : Run (Option Value) :=
  if argv.length < 1 then ErrorAbort (name ++ ascii "() expects at least 1 arg")
  else do
    match ← ReadValueVarArgs argv 0 with
    | some (data :: sums) =>
      if data.size < 0 then StringValue []
      else do
        free data
        if sums.isEmpty then StringValue (PrintSha1 (sha1 data.text)) else sha1Loop (sha1 data.text) sums
    | _ => pure none

/-! ## Evaluation -/

def callFunction (fn : Function) (name : Bytes) (argv : Args) : Run (Option Value) := do
  push (.enter fn argv.length)
  match fn with
  | .Literal => Literal name
  | .ConcatFn => ConcatFn argv
  | .IfElseFn => IfElseFn argv
  | .AbortFn => AbortFn argv
  | .AssertFn => AssertFn argv
  | .SleepFn => SleepFn argv
  | .StdoutFn => StdoutFn argv
  | .LogicalAndFn => LogicalAndFn argv
  | .LogicalOrFn => LogicalOrFn argv
  | .LogicalNotFn => LogicalNotFn argv
  | .SubstringFn => SubstringFn argv
  | .EqualityFn => EqualityFn argv
  | .InequalityFn => InequalityFn argv
  | .SequenceFn => SequenceFn argv
  | .LessThanIntFn => LessThanIntFn argv
  | .GreaterThanIntFn => GreaterThanIntFn argv
  | .MountFn => MountFn name argv
  | .IsMountedFn => IsMountedFn name argv
  | .UnmountFn => UnmountFn name argv
  | .FormatFn => FormatFn name argv
  | .ShowProgressFn => ShowProgressFn name argv
  | .SetProgressFn => SetProgressFn name argv
  | .DeleteFn => DeleteFn name argv
  | .PackageExtractDirFn => PackageExtractDirFn name argv
  | .PackageExtractFileFn => PackageExtractFileFn name argv
  | .SymlinkFn => SymlinkFn name argv
  | .SetMetadataFn => SetMetadataFn name argv
  | .GetPropFn => GetPropFn name argv
  | .FileGetPropFn => FileGetPropFn argv
  | .WriteRawImageFn => WriteRawImageFn argv
  | .ApplyPatchFn => ApplyPatchFn name argv
  | .ApplyPatchCheckFn => ApplyPatchCheckFn name argv
  | .ApplyPatchSpaceFn => ApplyPatchSpaceFn argv
  | .ReadFileFn => ReadFileFn name argv
  | .Sha1CheckFn => Sha1CheckFn sha1 name argv
  | .RenameFn => RenameFn name argv
  | .WipeCacheFn => WipeCacheFn name argv
  | .UIPrintFn => UIPrintFn argv
  | .RunProgramFn => RunProgramFn name argv
  | .CollectBackupDataFn => CollectBackupDataFn name argv
  | .RebootNowFn => RebootNowFn name argv
  | .GetStageFn => GetStageFn name argv
  | .SetStageFn => SetStageFn name argv

mutual
def EvaluateValue : Expr → Run (Option Value)
  | .mk fn name argv => callFunction sha1 fn name (EvaluateArgs argv)
def EvaluateArgs : List Expr → Args
  | [] => []
  | e :: rest => EvaluateValue e :: EvaluateArgs rest
end

/-! ## The table of functions -/

def RegisterBuiltins : List (Bytes × Function) :=
  [(ascii "ifelse", .IfElseFn), (ascii "abort", .AbortFn), (ascii "assert", .AssertFn), (ascii "concat", .ConcatFn),
    (ascii "is_substring", .SubstringFn), (ascii "stdout", .StdoutFn), (ascii "sleep", .SleepFn),
    (ascii "less_than_int", .LessThanIntFn), (ascii "greater_than_int", .GreaterThanIntFn)]
def RegisterInstallFunctions : List (Bytes × Function) :=
  [(ascii "mount", .MountFn), (ascii "is_mounted", .IsMountedFn), (ascii "unmount", .UnmountFn),
    (ascii "format", .FormatFn), (ascii "show_progress", .ShowProgressFn), (ascii "set_progress", .SetProgressFn),
    (ascii "delete", .DeleteFn), (ascii "delete_recursive", .DeleteFn),
    (ascii "package_extract_dir", .PackageExtractDirFn), (ascii "package_extract_file", .PackageExtractFileFn),
    (ascii "symlink", .SymlinkFn), (ascii "set_metadata", .SetMetadataFn),
    (ascii "set_metadata_recursive", .SetMetadataFn), (ascii "getprop", .GetPropFn),
    (ascii "file_getprop", .FileGetPropFn), (ascii "write_raw_image", .WriteRawImageFn),
    (ascii "apply_patch", .ApplyPatchFn), (ascii "apply_patch_check", .ApplyPatchCheckFn),
    (ascii "apply_patch_space", .ApplyPatchSpaceFn), (ascii "read_file", .ReadFileFn),
    (ascii "sha1_check", .Sha1CheckFn), (ascii "rename", .RenameFn), (ascii "wipe_cache", .WipeCacheFn),
    (ascii "ui_print", .UIPrintFn), (ascii "run_program", .RunProgramFn),
    (ascii "collect_backup_data", .CollectBackupDataFn), (ascii "reboot_now", .RebootNowFn),
    (ascii "get_stage", .GetStageFn), (ascii "set_stage", .SetStageFn)]
def FindFunction (name : Bytes) : Option Function := (RegisterBuiltins ++ RegisterInstallFunctions).lookup name

end Recovery.Updater
