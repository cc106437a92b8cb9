import Recovery.EdifyBounds
import Recovery.UpdaterArgs
import Recovery.Logging

/-!
The order in which the functions of expr.c evaluate their arguments.
-/
namespace Recovery.EdifyOrder
open Memory Program Program.Prog Edify Updater EdifyParser
open EdifyBounds Logging

/-! ## Evaluation in order -/

/-- The next of the first `n` arguments. -/
def upTo (n : Nat) (seen : List Value) : Option Nat := if seen.length < n then some seen.length else none

/-- The argument that a function needs once the arguments before it had the values `seen`, if it needs
    one more. -/
def needs (fn : Function) (argc : Nat) (seen : List Value) : Option Nat :=
  match fn with
  | .ConcatFn | .StdoutFn => upTo argc seen
  | .AssertFn => if seen.all BooleanString then upTo argc seen else none
  | .AbortFn => upTo (min argc 1) seen
  | .SleepFn | .LogicalNotFn => upTo 1 seen
  | .SubstringFn | .EqualityFn | .InequalityFn | .SequenceFn => upTo 2 seen
  | .LessThanIntFn | .GreaterThanIntFn => if argc = 2 then upTo 2 seen else none
  | .LogicalAndFn => match seen with
    | [] => some 0
    | [left] => if BooleanString left then some 1 else none
    | _ => none
  | .LogicalOrFn => match seen with
    | [] => some 0
    | [left] => if BooleanString left then none else some 1
    | _ => none
  | .IfElseFn => if argc ≠ 2 ∧ argc ≠ 3 then none else match seen with
    | [] => some 0
    | [cond] => if BooleanString cond then some 1 else if argc = 3 then some 2 else none
    | _ => none
  | _ => none

/-- Events that are not the evaluation of an expression, nor the use of memory that is not there. -/
def quiet : Event → Bool
  | .enter _ _ | .wild | .endless => false
  | _ => true
def Quiet (log : List Event) : Prop := ∀ event ∈ log, quiet event = true

mutual
/-- The log of an evaluation of the expression that is in order, and its result. -/
inductive InOrder : Expr → List Event → Option Value → Prop where
  | call (fn : Function) (name : Bytes) (argv : List Expr) {log : List Event} {result : Option Value}
      (visits : Visits fn argv 0 [] log result) :
      InOrder (.mk fn name argv) (.enter fn argv.length :: log) result
/-- What is left of a call when arguments with the values `seen`, all before `argv[low]`, were evaluated. -/
inductive Visits : Function → List Expr → Nat → List Value → List Event → Option Value → Prop where
  | done {fn : Function} {argv : List Expr} {low : Nat} {seen : List Value} {log : List Event} {result : Option Value}
      (all : needs fn argv.length seen = none) (calm : Quiet log) : Visits fn argv low seen log result
  | null {fn : Function} {argv : List Expr} {low : Nat} {seen : List Value} {k : Nat} {e : Expr}
      {before during after : List Event} (needed : needs fn argv.length seen = some k) (order : low ≤ k)
      (there : argv[k]? = some e) (calm : Quiet before) (inside : InOrder e during none) (silent : Quiet after) :
      Visits fn argv low seen (before ++ .read k argv.length :: (during ++ after)) none
  | value {fn : Function} {argv : List Expr} {low : Nat} {seen : List Value} {k : Nat} {e : Expr} {v : Value}
      {before during rest : List Event} {result : Option Value} (needed : needs fn argv.length seen = some k)
      (order : low ≤ k) (there : argv[k]? = some e) (calm : Quiet before) (inside : InOrder e during (some v))
      (later : Visits fn argv (k + 1) (seen ++ [v]) rest result) :
      Visits fn argv low seen (before ++ .read k argv.length :: (during ++ rest)) result
end

variable (sha1 : Bytes → Bytes)

/-- With these answers of the device the evaluation returns, and what it did is in order. -/
def RunsInOrder (e : Expr) (s : Session) (answers : Nat → Reply) : Prop :=
  ∃ n result t log, (∀ rest, EvaluateValue sha1 e s (first answers n ++ rest) = ⟨some result, t, rest⟩) ∧
    t.events = s.events ++ log ∧ InOrder e log result
/-- The evaluation comes to a call of the function with `argc` arguments. -/
def Enters (e : Expr) (s : Session) (answers : Nat → Reply) (fn : Function) (argc : Nat) : Prop :=
  ∃ n new, (EvaluateValue sha1 e s (first answers n)).state.events = s.events ++ new ∧ .enter fn argc ∈ new

def builtin : Function → Bool
  | .Literal | .ConcatFn | .IfElseFn | .AbortFn | .AssertFn | .SleepFn | .StdoutFn | .LogicalAndFn | .LogicalOrFn
  | .LogicalNotFn | .SubstringFn | .EqualityFn | .InequalityFn | .SequenceFn | .LessThanIntFn
  | .GreaterThanIntFn => true
  | _ => false
/-- A call that the language has: an operator comes with its operands. -/
def Builtin (fn : Function) (argc : Nat) : Prop := builtin fn = true ∧ ∀ n ∈ fixedArity fn, argc = n
/-- The expressions over the builtin operators and functions. -/
inductive Builtins : Expr → Prop where
  | mk (fn : Function) (name : Bytes) (argv : List Expr) (known : Builtin fn argv.length)
      (below : ∀ e ∈ argv, Builtins e) : Builtins (.mk fn name argv)
/-- The call keeps to the order: it is not `greater_than_int` with two arguments, and no argument is
    missing. -/
def KeepsOrder (fn : Function) (argc : Nat) : Prop := ¬ (fn = .GreaterThanIntFn ∧ argc = 2) ∧ Enough fn argc
  deriving Decidable
def Bad : Event → Prop
  | .enter fn argc => ¬ KeepsOrder fn argc
  | _ => False

/-! ## Programs that keep to the order -/

def IsString (result : Option Value) : Prop := ∀ v, result = some v → v.type = .VAL_STRING
def Calm {α : Type} (p : Run α) : Prop := Logs Session.events Bad p fun _ log => Quiet log
def Yields (p : Run (Option Value)) : Prop := Logs Session.events Bad p fun result log => IsString result ∧ Quiet log
def Nulls (p : Run (Option Value)) : Prop := Logs Session.events Bad p fun result log => result = none ∧ Quiet log
/-- The program goes on with a call in order; its value is a string if those it has got are. -/
def Follows (fn : Function) (argv : List Expr) (low : Nat) (seen : List Value) (p : Run (Option Value)) : Prop :=
  Logs Session.events Bad p fun result log =>
    ((∀ v ∈ seen, v.type = .VAL_STRING) → IsString result) ∧ Visits fn argv low seen log result
def Evaluated (e : Expr) : Prop :=
  Logs Session.events Bad (EvaluateValue sha1 e) fun result log => IsString result ∧ InOrder e log result

theorem isString_none : IsString none := fun _ same => by cases same
theorem isString_some {v : Value} (string : v.type = .VAL_STRING) : IsString (some v) := by
  rintro w ⟨⟩
  exact string
theorem quiet_nil : Quiet [] := fun _ member => by cases member
theorem quiet_append {before after : List Event} (first : Quiet before) (second : Quiet after) :
    Quiet (before ++ after) := by
  intro event member
  exact (List.mem_append.mp member).elim (first event) (second event)

section Rules
variable {α β : Type}

theorem calm_push {event : Event} (calm : quiet event = true) : Calm (push event) := by
  apply logs_modify fun _ => rfl
  intro other member
  rw [List.mem_singleton.mp member]
  exact calm
theorem calm_bind {p : Run α} {k : α → Run β} (first : Calm p) (second : ∀ a, Calm (k a)) : Calm (p >>= k) :=
  logs_bind first (fun a => (second a).grows) fun a _ calm =>
    logs_conseq (second a) fun _ _ more => quiet_append calm more
theorem calm_pure (a : α) : Calm (pure a) := logs_pure _ quiet_nil
theorem calm_free (v : Value) : Calm (free v) := calm_push rfl
theorem calm_freeAll (values : List Value) : Calm (freeAll values) := by
  induction values with
  | nil => exact logs_pure _ quiet_nil
  | cons v rest ih => exact calm_bind (calm_free v) fun _ => ih
theorem calm_act (action : Edify.Action) : Calm (act action) :=
  calm_bind (calm_push rfl) fun _ => logs_ask fun _ => quiet_nil
theorem calm_setError (message : Bytes) : Calm (setError message) :=
  logs_modify (fun s => (List.append_nil s.events).symm) quiet_nil

theorem yields_calm {p : Run α} {k : α → Run (Option Value)} (first : Calm p) (second : ∀ a, Yields (k a)) :
    Yields (p >>= k) :=
  logs_bind first (fun a => (second a).grows) fun a _ calm =>
    logs_conseq (second a) fun _ _ more => ⟨more.1,quiet_append calm more.2⟩
theorem yields_null {p : Run (Option Value)} (null : Nulls p) : Yields p :=
  logs_conseq null fun _ _ post => ⟨post.1 ▸ isString_none,post.2⟩
theorem yields_pure {result : Option Value} (string : IsString result) : Yields (pure result) :=
  logs_pure _ ⟨string,quiet_nil⟩
theorem yields_string (text : Bytes) : Yields (StringValue text) := by
  refine logs_get fun s => logs_after (fun s => (List.append_nil s.events).symm) ?_
  exact logs_pure _ ⟨isString_some rfl,quiet_nil⟩
theorem yields_truth (b : Bool) : Yields (truth b) := yields_string _
theorem yields_then {p : Run (Option Value)} {q : Run Unit} (made : Yields p) (calm : Calm q) :
    Yields (p >>= fun result => q >>= fun _ => pure result) := by
  have ends (result : Option Value) : Calm (q >>= fun _ => pure result) :=
    calm_bind calm fun _ => calm_pure _
  refine logs_bind made (fun result => (ends result).grows) fun result _ ⟨string,before⟩ => ?_
  refine logs_bind calm (fun _ => (calm_pure result).grows) fun _ _ after => logs_pure _ ⟨string,?_⟩
  rw [List.append_nil]
  exact quiet_append before after
theorem nulls_pure : Nulls (pure none) := logs_pure _ ⟨rfl,quiet_nil⟩
theorem nulls_calm {p : Run α} {k : α → Run (Option Value)} (first : Calm p) (second : ∀ a, Nulls (k a)) :
    Nulls (p >>= k) :=
  logs_bind first (fun a => (second a).grows) fun a _ calm =>
    logs_conseq (second a) fun _ _ more => ⟨more.1,quiet_append calm more.2⟩

end Rules

section Calls
variable {fn : Function} {argv : List Expr} {low k : Nat} {seen : List Value}

private theorem visits_before {before log : List Event} {result : Option Value} (calm : Quiet before)
    (visits : Visits fn argv low seen log result) : Visits fn argv low seen (before ++ log) result := by
  cases visits with
  | done all quiet => exact .done all (quiet_append calm quiet)
  | null needed order there quiet inside silent =>
    rw [← List.append_assoc]
    exact .null needed order there (quiet_append calm quiet) inside silent
  | value needed order there quiet inside later =>
    rw [← List.append_assoc]
    exact .value needed order there (quiet_append calm quiet) inside later

theorem follows_done {p : Run (Option Value)} (all : needs fn argv.length seen = none) (yields : Yields p) :
    Follows fn argv low seen p :=
  logs_conseq yields fun _ _ post => ⟨fun _ => post.1,.done all post.2⟩
theorem follows_same {v : Value} (all : needs fn argv.length seen = none) (got : v ∈ seen) :
    Follows fn argv low seen (pure (some v)) :=
  logs_pure _ ⟨fun strings => isString_some (strings v got),.done all quiet_nil⟩
theorem follows_calm {α : Type} {p : Run α} {cont : α → Run (Option Value)} (calm : Calm p)
    (later : ∀ a, Follows fn argv low seen (cont a)) : Follows fn argv low seen (p >>= cont) :=
  logs_bind calm (fun a => (later a).grows) fun a _ before =>
    logs_conseq (later a) fun _ _ post => ⟨post.1,visits_before before post.2⟩

def Gets (argv : List Expr) (k : Nat) (p : Run (Option Value)) : Prop :=
  ∃ e, argv[k]? = some e ∧ Logs Session.events Bad p fun result log =>
    IsString result ∧ ∃ during, log = .read k argv.length :: during ∧ InOrder e during result

theorem follows_get {p : Run (Option Value)} {cont : Option Value → Run (Option Value)} (gets : Gets argv k p)
    (needed : needs fn argv.length seen = some k) (order : low ≤ k) (null : Nulls (cont none))
    (value : ∀ v, Follows fn argv (k + 1) (seen ++ [v]) (cont (some v))) : Follows fn argv low seen (p >>= cont) := by
  obtain ⟨e,there,got⟩ := gets
  refine logs_bind got ?_ ?_
  · rintro (_ | v)
    exacts [null.grows,(value v).grows]
  rintro (_ | v) _ ⟨string,during,rfl,inside⟩
  · refine logs_conseq null ?_
    rintro result after ⟨rfl,silent⟩
    exact ⟨fun _ => isString_none,.null needed order there quiet_nil inside silent⟩
  · refine logs_conseq (value v) fun result rest post => ?_
    refine ⟨fun strings => post.1 fun w member => ?_,.value needed order there quiet_nil inside post.2⟩
    rcases List.mem_append.mp member with old | new
    · exact strings w old
    · rw [List.mem_singleton.mp new]
      exact string v rfl

theorem args_length (argv : List Expr) : (EvaluateArgs sha1 argv).length = argv.length := by simp [evaluateArgs_map]

variable {sha1} (args : ∀ e ∈ argv, Evaluated sha1 e)
include args

theorem argument_gets (below : k < argv.length) : Gets argv k (argument (EvaluateArgs sha1 argv) k) := by
  refine ⟨argv[k],List.getElem?_eq_getElem below,?_⟩
  have here : (EvaluateArgs sha1 argv)[k]? = some (EvaluateValue sha1 argv[k]) := by
    simp [evaluateArgs_map,List.getElem?_eq_getElem below]
  simp only [argument,here,args_length]
  refine logs_after (fun _ => rfl) ?_
  exact logs_conseq (args _ (List.getElem_mem below)) fun _ during post => ⟨post.1,during,rfl,post.2⟩
theorem evaluate_gets (below : k < argv.length) : Gets argv k (Evaluate (EvaluateArgs sha1 argv) k) := by
  obtain ⟨e,there,got⟩ := argument_gets args below
  have grows (value : Option Value) : Grows Session.events (asString value) := by
    cases value with
    | none => exact (calm_pure none).grows
    | some v =>
      refine (show Calm (asString (some v)) from logs_ite (fun _ => calm_pure _) fun _ => ?_).grows
      exact calm_bind (calm_bind (calm_setError _) fun _ => calm_pure _) fun _ => calm_bind (calm_free v) fun _ => calm_pure _
  refine ⟨e,there,logs_bind got grows ?_⟩
  rintro (_ | v) log ⟨string,post⟩
  · exact logs_pure _ ⟨isString_none,by simpa using post⟩
  · rw [asString,if_pos (string v rfl)]
    exact logs_pure _ ⟨string,by simpa using post⟩

/-! ## The functions -/

theorem follows_last (below : k < argv.length) (needed : needs fn argv.length seen = some k) (order : low ≤ k)
    (all : ∀ v, needs fn argv.length (seen ++ [v]) = none) :
    Follows fn argv low seen (argument (EvaluateArgs sha1 argv) k) := by
  rw [← bind_pure (argument (EvaluateArgs sha1 argv) k)]
  refine follows_get (argument_gets args below) needed order nulls_pure fun v => ?_
  exact follows_same (all v) (by simp)

theorem readLoop_follows {n : Nat} {cont : Option (List Value) → Run (Option Value)}
    (needed : ∀ seen : List Value, seen.length < n → needs fn argv.length seen = some seen.length)
    (fits : n ≤ argv.length) (null : Nulls (cont none))
    (value : ∀ values, values.length = n → Follows fn argv n values (cont (some values))) (count : Nat) :
    ∀ got : List Value, got.length + count = n →
      Follows fn argv got.length got (readLoop (Evaluate (EvaluateArgs sha1 argv)) count got.length got >>= cont) := by
  induction count with
  | zero =>
    intro got full
    have there := value got full
    rw [← full] at there
    exact there
  | succ count ih =>
    intro got room
    rw [readLoop,bind_assoc]
    refine follows_get (evaluate_gets args (by omega)) (needed got (by omega)) le_rfl ?_ fun v => ?_
    · rw [bind_assoc]
      exact nulls_calm (calm_freeAll got) fun _ => null
    · have later := ih (got ++ [v]) (by simp; omega)
      rw [List.length_append,List.length_singleton] at later
      exact later

private theorem concat_follows : Follows .ConcatFn argv 0 [] (ConcatFn (EvaluateArgs sha1 argv)) := by
  unfold ConcatFn
  rw [args_length]
  refine logs_ite (fun empty => follows_done (by simp [needs,upTo,empty]) (yields_string _)) fun _ => ?_
  have needed (seen : List Value) (low : seen.length < argv.length) :
      needs .ConcatFn argv.length seen = some seen.length := if_pos low
  refine readLoop_follows args needed le_rfl nulls_pure ?_ _ [] (by simp)
  intro values full
  exact follows_done (by simp [needs,upTo,full]) (yields_then (yields_string _) (calm_freeAll values))
private theorem ifElse_follows : Follows .IfElseFn argv 0 [] (IfElseFn (EvaluateArgs sha1 argv)) := by
  unfold IfElseFn
  rw [args_length]
  refine logs_ite (fun other => ?_) fun fits => ?_
  · exact follows_done (if_pos other) (yields_null (nulls_calm (calm_setError _) fun _ => nulls_pure))
  have some : needs .IfElseFn argv.length [] = some 0 := if_neg fits
  refine follows_get (evaluate_gets args (by omega)) some le_rfl nulls_pure fun cond => ?_
  refine logs_ite (fun yes => follows_calm (calm_free cond) fun _ => ?_) fun no => ?_
  · exact follows_last args (by omega) (by simp [needs,fits,yes]) le_rfl fun _ => by simp [needs]
  refine logs_ite (fun three => follows_calm (calm_free cond) fun _ => ?_) fun two => ?_
  · exact follows_last args (by omega) (by simp [needs,three,no]) (by omega) fun _ => by simp [needs]
  · exact follows_same (by simp [needs,no,two]) (by simp)
private theorem abort_follows : Follows .AbortFn argv 0 [] (AbortFn (EvaluateArgs sha1 argv)) := by
  have sets (msg : Option Value) : Nulls (setError ((msg.map Value.text).getD (ascii "called abort()")) >>= fun _ =>
      pure none) := nulls_calm (calm_setError _) fun _ => nulls_pure
  unfold AbortFn abortMessage
  rw [args_length,ite_bind]
  refine logs_ite (fun some => ?_) fun empty => ?_
  · have one : min argv.length 1 = 1 := by omega
    refine follows_get (evaluate_gets args some) (by simp [needs,upTo,one]) le_rfl (sets none) fun v => ?_
    exact follows_done (by simp [needs,upTo]) (yields_null (sets v))
  · have zero : min argv.length 1 = 0 := by omega
    exact follows_done (by simp [needs,upTo,zero]) (yields_null (sets none))

private theorem assertLoop_follows (count : Nat) : ∀ seen : List Value, seen.length + count = argv.length →
    seen.all BooleanString = true →
    Follows .AssertFn argv seen.length seen (assertLoop (EvaluateArgs sha1 argv) count seen.length) := by
  induction count with
  | zero => exact fun seen full _ => follows_done (by simp [needs,upTo]; omega) (yields_string _)
  | succ count ih =>
    intro seen room true
    have needed : needs .AssertFn argv.length seen = some seen.length := by
      simp only [needs,true,if_true,upTo]
      exact if_pos (by omega)
    refine follows_get (evaluate_gets args (by omega)) needed le_rfl nulls_pure fun v => ?_
    refine follows_calm (calm_free v) fun _ => logs_ite (fun yes => ?_) fun no => ?_
    · have later := ih (seen ++ [v]) (by simp; omega) (by simp_all)
      rw [List.length_append,List.length_singleton] at later
      exact later
    · refine follows_done ?_ (yields_null (nulls_calm (calm_setError _) fun _ => nulls_pure))
      simp [needs,no]
private theorem stdoutLoop_follows (count : Nat) : ∀ seen : List Value, seen.length + count = argv.length →
    Follows .StdoutFn argv seen.length seen (stdoutLoop (EvaluateArgs sha1 argv) count seen.length) := by
  induction count with
  | zero => exact fun seen full => follows_done (by simp [needs,upTo]; omega) (yields_string _)
  | succ count ih =>
    intro seen room
    refine follows_get (evaluate_gets args (by omega)) (if_pos (by omega)) le_rfl nulls_pure fun v => ?_
    refine follows_calm (calm_act _) fun _ => follows_calm (calm_free v) fun _ => ?_
    have later := ih (seen ++ [v]) (by simp; omega)
    rw [List.length_append,List.length_singleton] at later
    exact later

private theorem sleep_follows (one : 1 ≤ argv.length) : Follows .SleepFn argv 0 [] (SleepFn (EvaluateArgs sha1 argv)) := by
  refine follows_get (evaluate_gets args one) rfl le_rfl nulls_pure fun val => ?_
  exact follows_calm (calm_act _) fun _ => follows_same rfl (by simp)
private theorem not_follows (one : 1 ≤ argv.length) :
    Follows .LogicalNotFn argv 0 [] (LogicalNotFn (EvaluateArgs sha1 argv)) := by
  refine follows_get (evaluate_gets args one) rfl le_rfl nulls_pure fun val => ?_
  exact follows_done rfl (yields_calm (calm_free val) fun _ => yields_truth _)
theorem shortCircuit_follows {goesOn : Bool} (two : 2 ≤ argv.length) (first : needs fn argv.length [] = some 0)
    (second : ∀ left, needs fn argv.length [left] = if BooleanString left = goesOn then some 1 else none)
    (all : ∀ left right, needs fn argv.length [left,right] = none) :
    Follows fn argv 0 [] (shortCircuit goesOn (EvaluateArgs sha1 argv)) := by
  refine follows_get (evaluate_gets args (by omega)) first le_rfl nulls_pure fun left => ?_
  refine logs_ite (fun goes => follows_calm (calm_free left) fun _ => ?_) fun stops => ?_
  · exact follows_last args two ((second left).trans (if_pos goes)) le_rfl fun right => all left right
  · exact follows_same ((second left).trans (if_neg stops)) (by simp)
theorem compare_follows {test : Bytes → Bytes → Bool} (two : 2 ≤ argv.length)
    (needed : ∀ seen, needs fn argv.length seen = upTo 2 seen) :
    Follows fn argv 0 [] (compareFn test (EvaluateArgs sha1 argv)) := by
  refine follows_get (evaluate_gets args (by omega)) (needed []) le_rfl nulls_pure fun left => ?_
  refine follows_get (evaluate_gets args two) (needed [left]) le_rfl ?_ fun right => ?_
  · exact nulls_calm (calm_free left) fun _ => nulls_pure
  · refine follows_done (needed [left,right]) ?_
    exact yields_then (q := free left >>= fun _ => free right) (yields_truth _)
      (calm_bind (calm_free left) fun _ => calm_free right)
theorem sequence_follows (two : 2 ≤ argv.length) :
    Follows .SequenceFn argv 0 [] (SequenceFn (EvaluateArgs sha1 argv)) := by
  refine follows_get (argument_gets args (by omega)) rfl le_rfl nulls_pure fun left => ?_
  exact follows_calm (calm_free left) fun _ => follows_last args two rfl le_rfl fun _ => rfl
theorem lessThan_follows : Follows .LessThanIntFn argv 0 [] (LessThanIntFn (EvaluateArgs sha1 argv)) := by
  unfold LessThanIntFn
  rw [args_length]
  refine logs_ite (fun other => ?_) fun two => ?_
  · exact follows_done (if_neg other) (yields_null (nulls_calm (calm_setError _) fun _ => nulls_pure))
  have exact : argv.length = 2 := by omega
  have needed (seen : List Value) : needs .LessThanIntFn argv.length seen = upTo 2 seen := if_pos exact
  have next (seen : List Value) (low : seen.length < 2) :
      needs .LessThanIntFn argv.length seen = some seen.length := (needed seen).trans (if_pos low)
  refine readLoop_follows args next (by omega) nulls_pure ?_ _ [] (by simp)
  intro values full
  obtain ⟨left,right,rfl⟩ : ∃ left right, values = [left,right] := List.length_eq_two.mp full
  refine follows_done (needed _) ?_
  exact yields_calm (calm_free left) fun _ => yields_calm (calm_free right) fun _ => yields_truth _

end Calls

/-! ## Expressions -/

theorem bounds_grows {p : Run (Option Value)} (bounds : Bounds False p) : Grows Session.events p :=
  fun s as => (bounds s as).imp fun _ within => within.1
theorem evaluated_call {fn : Function} {argv : List Expr} (name : Bytes) (known : Builtin fn argv.length)
    (args : ∀ e ∈ argv, Evaluated sha1 e) (bounded : ∀ run ∈ EvaluateArgs sha1 argv, Bounds True run) :
    Evaluated sha1 (.mk fn name argv) := by
  obtain ⟨builtin,arity⟩ := known
  unfold Evaluated
  rw [EvaluateValue,callFunction.eq_def,args_length]
  by_cases keeps : KeepsOrder fn argv.length
  case neg =>
    refine logs_bad (fun _ => rfl) keeps (bounds_grows ?_)
    cases fn with
    | SleepFn => exact sleep_bounds bounded False.elim
    | SubstringFn => exact compare_bounds bounded _ False.elim
    | GreaterThanIntFn => exact greaterThan_bounds bounded
    | ApplyPatchSpaceFn | FileGetPropFn | WriteRawImageFn => cases builtin
    | _ => exact absurd ⟨by rintro ⟨⟨⟩,-⟩,Nat.zero_le _⟩ keeps
  obtain ⟨straight,enough⟩ := keeps
  have entered {p : Run (Option Value)} (follows : Follows fn argv 0 [] p) :
      Logs Session.events Bad p fun result log =>
        IsString result ∧ InOrder (.mk fn name argv) (.enter fn argv.length :: log) result :=
    logs_conseq follows fun _ _ post => ⟨post.1 (by simp),.call fn name argv post.2⟩
  refine logs_after (fun _ => rfl) (entered ?_)
  have two (fixed : fixedArity fn = some 2) : 2 ≤ argv.length := Nat.le_of_eq (arity 2 fixed).symm
  cases fn with
  | Literal => exact follows_done rfl (yields_string _)
  | ConcatFn => exact concat_follows args
  | IfElseFn => exact ifElse_follows args
  | AbortFn => exact abort_follows args
  | AssertFn =>
    rw [AssertFn,args_length]
    exact assertLoop_follows args _ [] (by simp) rfl
  | SleepFn => exact sleep_follows args enough
  | StdoutFn =>
    rw [StdoutFn,args_length]
    exact stdoutLoop_follows args _ [] (by simp)
  | LogicalAndFn => exact shortCircuit_follows args (two rfl) rfl (fun _ => rfl) fun _ _ => rfl
  | LogicalOrFn =>
    refine shortCircuit_follows args (two rfl) rfl (fun left => ?_) fun _ _ => rfl
    cases value : BooleanString left <;> simp [needs,value]
  | LogicalNotFn => exact not_follows args (Nat.le_of_eq (arity 1 rfl).symm)
  | SubstringFn => exact compare_follows args enough fun _ => rfl
  | EqualityFn => exact compare_follows args (two rfl) fun _ => rfl
  | InequalityFn => exact compare_follows args (two rfl) fun _ => rfl
  | SequenceFn => exact sequence_follows args (two rfl)
  | LessThanIntFn => exact lessThan_follows args
  | GreaterThanIntFn =>
    have other : argv.length ≠ 2 := fun same => straight ⟨rfl,same⟩
    simp only [GreaterThanIntFn,args_length,if_pos other]
    exact follows_done (if_neg other) (yields_null (nulls_calm (calm_setError _) fun _ => nulls_pure))
  | _ => cases builtin

theorem builtins_formed {e : Expr} (made : Builtins e) : WellFormed e := by
  induction made with
  | mk fn name argv known _ ih => exact .mk fn name argv known.2 ih
theorem builtins_evaluated {e : Expr} (made : Builtins e) : Evaluated sha1 e := by
  induction made with
  | mk fn name argv known below ih =>
    refine evaluated_call sha1 name known ih ?_
    rw [evaluateArgs_map]
    intro run member
    obtain ⟨e,inside,rfl⟩ := List.mem_map.mp member
    exact evaluateValue_bounds sha1 (builtins_formed (below e inside))

/-! ## Calls out of order -/

theorem visits_first {fn : Function} {argv : List Expr} {log : List Event} {result : Option Value} {k : Nat}
    (visits : Visits fn argv 0 [] log result) (needed : needs fn argv.length [] = some k) :
    ∃ before f n rest, log = before ++ .read k argv.length :: .enter f n :: rest ∧ Quiet before := by
  have starts {e : Expr} {during : List Event} {value : Option Value} (inside : InOrder e during value) :
      ∃ f n rest, during = .enter f n :: rest := by
    cases inside with
    | call f name operands => exact ⟨f,_,_,rfl⟩
  cases visits with
  | done all => rw [needed] at all; cases all
  | null other _ _ calm inside =>
    cases needed.symm.trans other
    obtain ⟨f,n,rest,rfl⟩ := starts inside
    exact ⟨_,f,n,_,rfl,calm⟩
  | value other _ _ calm inside =>
    cases needed.symm.trans other
    obtain ⟨f,n,rest,rfl⟩ := starts inside
    exact ⟨_,f,n,_,rfl,calm⟩
theorem right_first_disordered {name : Bytes} {left right : Expr} {f : Function} {n : Nat} {rest : List Event}
    {result : Option Value} : ¬ InOrder (.mk .GreaterThanIntFn name [left,right])
      (.enter .GreaterThanIntFn 2 :: .read 0 2 :: .read 1 2 :: .enter f n :: rest) result := by
  intro order
  cases order with
  | call _ _ _ visits =>
    obtain ⟨before,g,m,more,same,calm⟩ := visits_first visits rfl
    rcases before with _ | ⟨x,_ | ⟨y,_ | ⟨z,before⟩⟩⟩
    · cases same
    · cases same
    · cases same
    · cases same
      cases calm (.enter f n) (by simp)

def text (bytes : Bytes) : Expr := .mk .Literal bytes []

variable {sha1}

theorem inOrder_run {e : Expr} {answers : Nat → Reply} (ordered : RunsInOrder sha1 e UpdaterArgs.noSession answers) :
    ∃ io, ∃ result, (EvaluateValue sha1 e UpdaterArgs.noSession io).value = some result ∧
      InOrder e (EvaluateValue sha1 e UpdaterArgs.noSession io).state.events result := by
  obtain ⟨n,result,t,log,run,grown,order⟩ := ordered
  refine ⟨_,result,by rw [run []],?_⟩
  rw [run [],grown]
  exact order
theorem wild_disordered {e : Expr} {answers : Nat → Reply}
    (stuck : ∀ io, (EvaluateValue sha1 e UpdaterArgs.noSession io).value = none) :
    ¬ RunsInOrder sha1 e UpdaterArgs.noSession answers := by
  intro ordered
  obtain ⟨io,result,value,-⟩ := inOrder_run ordered
  cases (stuck io).symm.trans value

variable (sha1) in
theorem call_disordered {fn : Function} {argc : Nat} (known : Builtin fn argc) (fails : ¬ KeepsOrder fn argc)
    (answers : Nat → Reply) : ∃ argv : List Expr, argv.length = argc ∧ (∀ e ∈ argv, e = text (ascii "a")) ∧
      ¬ RunsInOrder sha1 (.mk fn [] argv) UpdaterArgs.noSession answers := by
  by_cases swapped : fn = .GreaterThanIntFn ∧ argc = 2
  · obtain ⟨rfl,rfl⟩ := swapped
    refine ⟨[text (ascii "a"),text (ascii "a")],rfl,by simp,fun ordered => ?_⟩
    obtain ⟨io,result,-,order⟩ := inOrder_run ordered
    exact right_first_disordered order
  have few : ¬ Enough fn argc := fun enough => fails ⟨swapped,enough⟩
  have short : argc < unchecked fn := Nat.lt_of_not_le few
  cases fn with
  | SleepFn =>
    obtain rfl : argc = 0 := by simp only [unchecked] at short; omega
    exact ⟨[],rfl,by simp,wild_disordered fun io => rfl⟩
  | SubstringFn =>
    obtain rfl | rfl : argc = 0 ∨ argc = 1 := by simp only [unchecked] at short; omega
    · exact ⟨[],rfl,by simp,wild_disordered fun io => rfl⟩
    · exact ⟨[text (ascii "a")],rfl,by simp,wild_disordered fun io => rfl⟩
  | ApplyPatchSpaceFn | FileGetPropFn | WriteRawImageFn => cases known.1
  | _ => cases short

/-- Every evaluation of an expression over builtin operators and functions returns and is in order, if each call
    that it comes to keeps to the order; and for every call that does not there is an expression, with
    literals as its arguments, that is never evaluated in order. -/
theorem evaluates_in_order_if_calls_do (sha1 : Bytes → Bytes) :
    (∀ e, Builtins e → ∀ s answers, (∀ fn argc, Enters sha1 e s answers fn argc → KeepsOrder fn argc) →
      RunsInOrder sha1 e s answers) ∧
    ∀ fn argc, Builtin fn argc → ¬ KeepsOrder fn argc → ∀ answers, ∃ argv : List Expr, argv.length = argc ∧
      (∀ e ∈ argv, e = text (ascii "a")) ∧ ¬ RunsInOrder sha1 (.mk fn [] argv) UpdaterArgs.noSession answers := by
  refine ⟨fun e made s answers keeps => ?_, fun fn argc known fails answers => call_disordered sha1 known fails answers⟩
  obtain ⟨n, ⟨result, t, log, run, grown, _, order⟩ | ⟨event, wrong, found⟩⟩ :=
    (builtins_evaluated sha1 made).returns s answers
  · exact ⟨n, result, t, log, run, grown, order⟩
  · obtain ⟨new, member, grown⟩ := found []
    rw [List.append_nil] at grown
    cases event with
    | enter fn argc => exact absurd (keeps fn argc ⟨n, new, grown, member⟩) wrong
    | _ => exact wrong.elim

/-- `ifelse("", greater_than_int("1", "2"), "x")` does not come to its second argument. -/
def skippedCall : Expr :=
  .mk .IfElseFn (ascii "ifelse")
    [text [], .mk .GreaterThanIntFn (ascii "greater_than_int") [text (ascii "1"), text (ascii "2")], text (ascii "x")]
theorem skippedCall_in_order :
    Builtins skippedCall ∧ RunsInOrder id skippedCall UpdaterArgs.noSession fun _ => ⟨0, none⟩ := by
  have literal (bytes : Bytes) : Builtins (text bytes) := .mk .Literal bytes [] ⟨rfl, by simp [fixedArity]⟩ (by simp)
  have made : Builtins skippedCall := by
    refine .mk _ _ _ ⟨rfl, by simp [fixedArity]⟩ ?_
    simp only [List.forall_mem_cons, literal, true_and, List.not_mem_nil, false_implies, implies_true, and_true]
    exact .mk _ _ _ ⟨rfl, by simp [fixedArity]⟩ (by simp [literal])
  refine ⟨made, (evaluates_in_order_if_calls_do id).1 _ made _ _ ?_⟩
  rintro fn argc ⟨n, new, grown, member⟩
  have log : (EvaluateValue id skippedCall UpdaterArgs.noSession (first (fun _ => ⟨0, none⟩) n)).state.events =
      [.enter .IfElseFn 3, .read 0 3, .enter .Literal 0, .free 0, .read 2 3, .enter .Literal 0] := rfl
  rw [log] at grown
  obtain rfl : new = _ := grown.symm
  simp only [List.mem_cons, Event.enter.injEq, reduceCtorEq, List.not_mem_nil, or_false, false_or] at member
  rcases member with ⟨rfl, rfl⟩ | ⟨rfl, rfl⟩ | ⟨rfl, rfl⟩
  all_goals decide

/-- `greater_than_int(abort("a"), abort("b"))` evaluates `abort("b")`, and `abort("a")` never. -/
theorem rightAbort_first : ¬ RunsInOrder id (.mk .GreaterThanIntFn (ascii "greater_than_int")
    [.mk .AbortFn (ascii "abort") [text (ascii "a")], .mk .AbortFn (ascii "abort") [text (ascii "b")]])
    UpdaterArgs.noSession (fun _ => ⟨0, none⟩) := by
  intro ordered
  obtain ⟨io, result, -, order⟩ := inOrder_run ordered
  exact right_first_disordered order

end Recovery.EdifyOrder
