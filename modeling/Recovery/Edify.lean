import Recovery.Memory
import Recovery.Program

/-!
Edify, the language of updater scripts (edify/expr.c): values, expressions, and the functions
that every script can call. A function gets its arguments unevaluated, as programs that it runs
when it needs them. What a run does is kept as a list of events.
-/
namespace Recovery.Edify
open Memory Program Program.Prog

/-! ## Values and functions -/

inductive ValueType where
  | VAL_STRING
  | VAL_BLOB
  deriving DecidableEq, Repr

/-- A value; `id` tells allocated values apart. The string of a value goes under the number of
    the value. -/
structure Value where
  type : ValueType
  size : Int
  data : Option Bytes
  id : Nat
  deriving DecidableEq, Repr

def Value.text (v : Value) : Bytes := v.data.getD []

/-- The functions of expr.c and of updater/install.c. -/
inductive Function where
  | Literal | ConcatFn | IfElseFn | AbortFn | AssertFn | SleepFn | StdoutFn | LogicalAndFn | LogicalOrFn
  | LogicalNotFn | SubstringFn | EqualityFn | InequalityFn | SequenceFn | LessThanIntFn | GreaterThanIntFn
  | MountFn | IsMountedFn | UnmountFn | FormatFn | ShowProgressFn | SetProgressFn | DeleteFn | PackageExtractDirFn
  | PackageExtractFileFn | SymlinkFn | SetMetadataFn | GetPropFn | FileGetPropFn | WriteRawImageFn | ApplyPatchFn
  | ApplyPatchCheckFn | ApplyPatchSpaceFn | ReadFileFn | Sha1CheckFn | RenameFn | WipeCacheFn | UIPrintFn
  | RunProgramFn | CollectBackupDataFn | RebootNowFn | GetStageFn | SetStageFn
  deriving DecidableEq, Repr

/-- An expression as the parser builds it, without its place in the script. -/
inductive Expr where
  | mk (fn : Function) (name : Bytes) (argv : List Expr)

/-! ## Runs -/

/-- What a function asks of the device. `work` stands for all that a function does once it has
    its arguments. -/
inductive Action where
  | sleep (seconds : Int)
  | stdout (text : Bytes)
  | ui_print (text : Bytes)
  | unlink (path : Bytes)
  | dirUnlinkHierarchy (path : Bytes)
  | mkdir (path : Bytes)
  | symlink (target path : Bytes)
  | applypatch (source target sha1 : Bytes) (size : Int) (patches : List (Bytes × Bytes))
  | applypatch_check (file : Bytes) (sha1s : Option (List Bytes))
  | work (fn : Function) (args : List Bytes)
  deriving DecidableEq, Repr

/-- `enter` is the call of a function with `argc` arguments, `read` the use of `argv[k]` in it,
    `wild` the use of memory that is not there, and `endless` a loop that is never left. -/
inductive Event where
  | enter (fn : Function) (argc : Nat)
  | read (k argc : Nat)
  | free (id : Nat)
  | act (action : Action)
  | wild
  | endless
  deriving DecidableEq, Repr

/-- The state of a script: its error message, what was done so far, the number of the next value,
    and the backup table of the updater. -/
structure Session where
  errmsg : Option Bytes
  events : List Event
  next : Nat
  bakfiles : List Bytes
  deriving DecidableEq, Repr

structure Reply where
  number : Int
  value : Option Value
  deriving DecidableEq, Repr

abbrev Run := Prog Session Reply
abbrev Args := List (Run (Option Value))

def push (event : Event) : Run Unit := modify fun s => { s with events := s.events ++ [event] }
def act (action : Action) : Run Reply := do
  push (.act action)
  ask
def free (v : Value) : Run Unit := push (.free v.id)
def freeAll : List Value → Run Unit
  | [] => pure ()
  | v :: rest => do
    free v
    freeAll rest

def decimal (n : Int) : Bytes := ascii (toString n)

def setError (message : Bytes) : Run Unit := modify fun s => { s with errmsg := some message }
/-- Sets the error message, of at most 4095 bytes, and returns `NULL`. -/
def ErrorAbort (message : Bytes) : Run (Option Value) := do
  setError (message.take 4095)
  pure none
def StringValue (text : Bytes) : Run (Option Value) := do
  let s ← get
  modify fun s => { s with next := s.next + 1 }
  pure (some ⟨.VAL_STRING, text.length, some text, s.next⟩)
def truth (b : Bool) : Run (Option Value) := StringValue (if b then ascii "t" else [])

def argument (argv : Args) (k : Nat) : Run (Option Value) := do
  push (.read k argv.length)
  match argv[k]? with
  | some run => run
  | none =>
    push .wild
    stuck
def asString (value : Option Value) : Run (Option Value) :=
  match value with
  | none => pure none
  | some v =>
    if v.type = .VAL_STRING then pure (some v)
    else do
      let result ← ErrorAbort (ascii "expecting string, got value type 2")
      free v
      pure result
def Evaluate (argv : Args) (k : Nat) : Run (Option Value) := do
  asString (← argument argv k)

/-- `count` arguments from `argv[k]` on. When one is `NULL` those that were got are freed. -/
def readLoop (get : Nat → Run (Option Value)) : Nat → Nat → List Value → Run (Option (List Value))
  | 0, _, got => pure (some got)
  | count + 1, k, got => do
    match ← get k with
    | some v => readLoop get count (k + 1) (got ++ [v])
    | none =>
      freeAll got
      pure none
def ReadArgs (argv : Args) (count : Nat) : Run (Option (List Value)) := readLoop (Evaluate argv) count 0 []
def ReadValueArgs (argv : Args) (count : Nat) : Run (Option (List Value)) := readLoop (argument argv) count 0 []
def ReadVarArgs (argv : Args) (k : Nat) : Run (Option (List Value)) := readLoop (Evaluate argv) (argv.length - k) k []
def ReadValueVarArgs (argv : Args) (k : Nat) : Run (Option (List Value)) :=
  readLoop (argument argv) (argv.length - k) k []

/-! ## The builtin functions -/

def BooleanString (v : Value) : Bool := !v.text.isEmpty

def isSpace (c : UInt8) : Bool := c == 32 || (9 ≤ c && c ≤ 13)
def isDigit (c : UInt8) : Bool := 48 ≤ c && c ≤ 57
/-- `strtol` with base 10: the number, cut to the ends of a long, and what is left of the text;
    all of it when there is no number. -/
def strtol (text : Bytes) : Int × Bytes :=
  let start := text.dropWhile isSpace
  let (negative, body) := match start with
    | 45 :: rest => (true, rest)
    | 43 :: rest => (false, rest)
    | _ => (false, start)
  let digits := body.takeWhile isDigit
  let value : Int := (digits.foldl (fun n c => n * 10 + (c.toNat - 48)) 0 : Nat)
  if digits.isEmpty then (0, text)
  else (if negative then max (-value) (-(2 ^ 63)) else min value (2 ^ 63 - 1), body.dropWhile isDigit)

def Literal (name : Bytes) : Run (Option Value) := StringValue name

def ConcatFn (argv : Args) : Run (Option Value) :=
  if argv.length = 0 then StringValue []
  else do
    match ← ReadArgs argv argv.length with
    | none => pure none
    | some strings =>
      let result ← StringValue (strings.flatMap Value.text)
      freeAll strings
      pure result

def IfElseFn (argv : Args) : Run (Option Value) :=
  if argv.length ≠ 2 ∧ argv.length ≠ 3 then do
    setError (ascii "ifelse expects 2 or 3 arguments")
    pure none
  else do
    match ← Evaluate argv 0 with
    | none => pure none
    | some cond =>
      if BooleanString cond then do
        free cond
        argument argv 1
      else if argv.length = 3 then do
        free cond
        argument argv 2
      else pure (some cond)

/-- The message of `abort`, if it has an argument. -/
def abortMessage (argv : Args) : Run (Option Value) := if argv.length > 0 then Evaluate argv 0 else pure none
def AbortFn (argv : Args) : Run (Option Value) := do
  let msg ← abortMessage argv
  setError ((msg.map Value.text).getD (ascii "called abort()"))
  pure none

/-- The loop over the arguments, of which `count` are left. What the message says of the script is
    not kept. -/
def assertLoop (argv : Args) : Nat → Nat → Run (Option Value)
  | 0, _ => StringValue []
  | count + 1, i => do
    match ← Evaluate argv i with
    | none => pure none
    | some v =>
      free v
      if BooleanString v then assertLoop argv count (i + 1)
      else do
        setError (ascii "assert failed: ")
        pure none
def AssertFn (argv : Args) : Run (Option Value) := assertLoop argv argv.length 0

def SleepFn (argv : Args) : Run (Option Value) := do
  match ← Evaluate argv 0 with
  | none => pure none
  | some val =>
    let _ ← act (.sleep (wrap 32 (strtol val.text).1))
    pure (some val)

def stdoutLoop (argv : Args) : Nat → Nat → Run (Option Value)
  | 0, _ => StringValue []
  | count + 1, i => do
    match ← Evaluate argv i with
    | none => pure none
    | some v =>
      let _ ← act (.stdout v.text)
      free v
      stdoutLoop argv count (i + 1)
def StdoutFn (argv : Args) : Run (Option Value) := stdoutLoop argv argv.length 0

/-- `&&` and `||`: the right side counts when the left one is `goesOn`. -/
def shortCircuit (goesOn : Bool) (argv : Args) : Run (Option Value) := do
  match ← Evaluate argv 0 with
  | none => pure none
  | some left =>
    if BooleanString left = goesOn then do
      free left
      argument argv 1
    else pure (some left)
def LogicalAndFn (argv : Args) : Run (Option Value) := shortCircuit true argv
def LogicalOrFn (argv : Args) : Run (Option Value) := shortCircuit false argv

def LogicalNotFn (argv : Args) : Run (Option Value) := do
  match ← Evaluate argv 0 with
  | none => pure none
  | some val =>
    free val
    truth (!BooleanString val)

def compareFn (test : Bytes → Bytes → Bool) (argv : Args) : Run (Option Value) := do
  match ← Evaluate argv 0 with
  | none => pure none
  | some left =>
    match ← Evaluate argv 1 with
    | none =>
      free left
      pure none
    | some right =>
      let result ← truth (test left.text right.text)
      free left
      free right
      pure result
def strstr (haystack needle : Bytes) : Bool :=
  (List.range (haystack.length + 1)).any fun i => needle.isPrefixOf (haystack.drop i)
def SubstringFn (argv : Args) : Run (Option Value) := compareFn (fun needle haystack => strstr haystack needle) argv
def EqualityFn (argv : Args) : Run (Option Value) := compareFn (fun left right => left == right) argv
def InequalityFn (argv : Args) : Run (Option Value) := compareFn (fun left right => left != right) argv

def SequenceFn (argv : Args) : Run (Option Value) := do
  match ← argument argv 0 with
  | none => pure none
  | some left =>
    free left
    argument argv 1

def asInt (text : Bytes) : Option Int := if text.isEmpty ∨ (strtol text).2 ≠ [] then none else some (strtol text).1
def LessThanIntFn (argv : Args) : Run (Option Value) :=
  if argv.length ≠ 2 then do
    setError (ascii "less_than_int expects 2 arguments")
    pure none
  else do
    match ← ReadArgs argv 2 with
    | some [left, right] =>
      free left
      free right
      truth (match asInt left.text, asInt right.text with
        | some l, some r => l < r
        | _, _ => false)
    | _ => pure none
/-- `temp` holds the arguments in the other order. -/
def GreaterThanIntFn (argv : Args) : Run (Option Value) :=
  if argv.length ≠ 2 then do
    setError (ascii "greater_than_int expects 2 arguments")
    pure none
  else LessThanIntFn [argument argv 1, argument argv 0]

end Recovery.Edify
