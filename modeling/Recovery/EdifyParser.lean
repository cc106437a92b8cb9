import Recovery.EdifyLexer
import Recovery.Updater

/-!
The parser of updater scripts (edify/parser.y) as a shift-reduce machine on a stack of grammar
symbols. Where the grammar is ambiguous the declared precedences decide.
-/
namespace Recovery.EdifyParser
open Memory Edify EdifyLexer Updater List

def Build (fn : Function) (argv : List Expr) : Expr := .mk fn (ascii "(operator)") argv

/-- The binary operators with their precedences, in increasing order, and what they build. All
    are left associative. -/
def operator : Token → Option (Nat × Function)
  | .SEMICOLON => some (1, .SequenceFn)
  | .OR => some (3, .LogicalOrFn)
  | .AND => some (4, .LogicalAndFn)
  | .EQ => some (5, .EqualityFn)
  | .NE => some (5, .InequalityFn)
  | .PLUS => some (6, .ConcatFn)
  | _ => none
/-- The precedence of `!`, which is above all of them. -/
def notPrecedence : Nat := 7

def startsExpr : Token → Bool
  | .STRING _ | .LPAREN | .NOT | .IF => true
  | _ => false

/-- The symbols on the stack: tokens, and what was reduced. `call` is `STRING '('` and `args`
    is `STRING '(' arglist`. -/
inductive Symbol where
  | token (t : Token)
  | expr (e : Expr)
  | call (name : Bytes)
  | args (name : Bytes) (argv : List Expr)

inductive Action where
  | shift
  | reduce (stack : List Symbol)
  | accept (root : Expr)
  | error

/-- Shift an operator, or one of the tokens that may follow here. -/
def continueWith (look : Option Token) (follow : List Token) : Action :=
  match look with
  | some t => if (operator t).isSome ∨ t ∈ follow then .shift else .error
  | none => .error

/-- What to do with the stack, whose top is its head, at the next token. -/
def action (stack : List Symbol) (look : Option Token) : Action :=
  match stack with
  | .token (.STRING text) :: rest =>
    if look = some .LPAREN then .shift else .reduce (.expr (.mk .Literal text []) :: rest)
  | .token .RPAREN :: .expr e :: .token .LPAREN :: rest => .reduce (.expr e :: rest)
  | .token .RPAREN :: .args name argv :: rest =>
    match FindFunction name with
    | some fn => .reduce (.expr (.mk fn name argv) :: rest)
    | none => .error
  | .token .ENDIF :: .expr e :: .token .THEN :: .expr cond :: .token .IF :: rest =>
    .reduce (.expr (Build .IfElseFn [cond, e]) :: rest)
  | .token .ENDIF :: .expr other :: .token .ELSE :: .expr e :: .token .THEN :: .expr cond :: .token .IF :: rest =>
    .reduce (.expr (Build .IfElseFn [cond, e, other]) :: rest)
  -- a semicolon may end an expression
  | .token .SEMICOLON :: .expr e :: rest =>
    if look.any startsExpr then .shift else .reduce (.expr e :: rest)
  | .call name :: rest =>
    if look = some .RPAREN ∨ look = some .COMMA then .reduce (.args name [] :: rest)
    else if look.any startsExpr then .shift else .error
  | .args _ _ :: _ => if look = some .RPAREN ∨ look = some .COMMA then .shift else .error
  | .expr e :: .call name :: rest =>
    if look = some .RPAREN ∨ look = some .COMMA then .reduce (.args name [e] :: rest) else continueWith look []
  | .expr e :: .token .COMMA :: .args name argv :: rest =>
    if look = some .RPAREN ∨ look = some .COMMA then .reduce (.args name (argv ++ [e]) :: rest)
    else continueWith look []
  | [.expr e] => if look = none then .accept e else continueWith look []
  | .expr _ :: .token .LPAREN :: _ => continueWith look [.RPAREN]
  | .expr _ :: .token .IF :: _ => continueWith look [.THEN]
  | .expr _ :: .token .THEN :: _ => continueWith look [.ELSE, .ENDIF]
  | .expr _ :: .token .ELSE :: _ => continueWith look [.ENDIF]
  | .expr e :: .token .NOT :: rest => .reduce (.expr (Build .LogicalNotFn [e]) :: rest)
  | .expr right :: .token op :: .expr left :: rest =>
    match operator op, look.bind operator with
    | some (level, fn), some (next, _) =>
      if level < next then .shift else .reduce (.expr (Build fn [left, right]) :: rest)
    | some (_, fn), none => .reduce (.expr (Build fn [left, right]) :: rest)
    | none, _ => .error
  | _ => if look.any startsExpr then .shift else .error

def shifted (stack : List Symbol) (t : Token) : List Symbol :=
  match stack, t with
  | .token (.STRING name) :: rest, .LPAREN => .call name :: rest
  | _, _ => .token t :: stack

def parseLoop : Nat → List Symbol → List Token → Option Expr
  | 0, _, _ => none
  | fuel + 1, stack, input =>
    match action stack input.head?, input with
    | .shift, t :: rest => parseLoop fuel (shifted stack t) rest
    | .shift, [] => none
    | .reduce stack, input => parseLoop fuel stack input
    | .accept root, _ => some root
    | .error, _ => none
/-- `yyparse` of a script without errors. A token takes at most three steps. -/
def yyparse (input : List Token) : Option Expr := parseLoop (3 * input.length + 1) [] input
def parseScript (text : Bytes) : Option Expr := yyparse (yylex text)

/-! ## Steps -/

def weight : Symbol → Nat
  | .token _ => 2
  | .expr _ => 1
  | .call _ => 4
  | .args _ _ => 3
def stackWeight (stack : List Symbol) : Nat := (stack.map weight).sum
def measure (stack : List Symbol) (input : List Token) : Nat := stackWeight stack + 3 * input.length

@[simp] theorem stackWeight_nil : stackWeight [] = 0 := rfl
@[simp] theorem stackWeight_cons (symbol : Symbol) (stack : List Symbol) :
    stackWeight (symbol :: stack) = weight symbol + stackWeight stack := by
  simp [stackWeight]

/-- Everything the machine can reduce. -/
inductive Reduces : List Symbol → List Symbol → Prop where
  | string (text : Bytes) (rest : List Symbol) :
      Reduces (.token (.STRING text) :: rest) (.expr (.mk .Literal text []) :: rest)
  | paren (e : Expr) (rest : List Symbol) :
      Reduces (.token .RPAREN :: .expr e :: .token .LPAREN :: rest) (.expr e :: rest)
  | call (name : Bytes) (argv : List Expr) (fn : Function) (rest : List Symbol) (found : FindFunction name = some fn) :
      Reduces (.token .RPAREN :: .args name argv :: rest) (.expr (.mk fn name argv) :: rest)
  | ifThen (cond e : Expr) (rest : List Symbol) :
      Reduces (.token .ENDIF :: .expr e :: .token .THEN :: .expr cond :: .token .IF :: rest)
        (.expr (Build .IfElseFn [cond, e]) :: rest)
  | ifElse (cond e other : Expr) (rest : List Symbol) :
      Reduces (.token .ENDIF :: .expr other :: .token .ELSE :: .expr e :: .token .THEN :: .expr cond :: .token .IF ::
        rest) (.expr (Build .IfElseFn [cond, e, other]) :: rest)
  | semicolon (e : Expr) (rest : List Symbol) : Reduces (.token .SEMICOLON :: .expr e :: rest) (.expr e :: rest)
  | empty (name : Bytes) (rest : List Symbol) : Reduces (.call name :: rest) (.args name [] :: rest)
  | first (e : Expr) (name : Bytes) (rest : List Symbol) :
      Reduces (.expr e :: .call name :: rest) (.args name [e] :: rest)
  | next (e : Expr) (name : Bytes) (argv : List Expr) (rest : List Symbol) :
      Reduces (.expr e :: .token .COMMA :: .args name argv :: rest) (.args name (argv ++ [e]) :: rest)
  | not (e : Expr) (rest : List Symbol) :
      Reduces (.expr e :: .token .NOT :: rest) (.expr (Build .LogicalNotFn [e]) :: rest)
  | binary (left right : Expr) (op : Token) (level : Nat) (fn : Function) (rest : List Symbol)
      (known : operator op = some (level, fn)) :
      Reduces (.expr right :: .token op :: .expr left :: rest) (.expr (Build fn [left, right]) :: rest)

private theorem continueWith_not_reduce (look : Option Token) (follow : List Token) (stack : List Symbol) :
    continueWith look follow ≠ .reduce stack := by
  unfold continueWith
  grind
private theorem continueWith_not_accept (look : Option Token) (follow : List Token) (root : Expr) :
    continueWith look follow ≠ .accept root := by
  unfold continueWith
  grind

variable {reduced stack : List Symbol} {root : Expr}

theorem action_reduces {look : Option Token}
    (reduce : action stack look = .reduce reduced) : Reduces stack reduced := by
  unfold action at reduce
  split at reduce
  all_goals grind [Reduces,continueWith_not_reduce]

private theorem action_accepts {look : Option Token}
    (accept : action stack look = .accept root) : .expr root ∈ stack := by
  unfold action at accept
  split at accept
  all_goals grind [continueWith_not_accept]

private theorem reduces_weight (reduce : Reduces stack reduced) :
    stackWeight reduced < stackWeight stack := by
  cases reduce <;> simp only [stackWeight_cons,weight] <;> omega
private theorem shifted_weight (stack : List Symbol) (t : Token) : stackWeight (shifted stack t) ≤ stackWeight stack + 2 := by
  unfold shifted
  split <;> simp only [stackWeight_cons,weight] <;> omega

/-- The machine comes from one stack and input to another, and has fuel left there. -/
def Leads (stack : List Symbol) (input : List Token) (stack' : List Symbol) (input' : List Token) : Prop :=
  ∀ fuel, measure stack input < fuel →
    ∃ fuel', measure stack' input' < fuel' ∧ parseLoop fuel stack input = parseLoop fuel' stack' input'

section Leading
variable {stack stack' stack'' : List Symbol} {input input' input'' : List Token}

theorem Leads.refl (stack : List Symbol) (input : List Token) : Leads stack input stack input :=
  fun fuel enough => ⟨fuel,enough,rfl⟩
theorem Leads.trans (first : Leads stack input stack' input') (second : Leads stack' input' stack'' input'') :
    Leads stack input stack'' input'' := by
  intro fuel enough
  obtain ⟨fuel',enough',same⟩ := first fuel enough
  obtain ⟨fuel'',enough'',same'⟩ := second fuel' enough'
  exact ⟨fuel'',enough'',same.trans same'⟩
theorem Leads.shift {t : Token} (shift : action stack (some t) = .shift) :
    Leads stack (t :: input) (shifted stack t) input := by
  intro fuel enough
  obtain ⟨fuel,rfl⟩ : ∃ n, fuel = n + 1 := ⟨fuel - 1,by omega⟩
  refine ⟨fuel,?_,?_⟩
  · have := shifted_weight stack t
    simp only [measure,length_cons] at enough ⊢
    omega
  · simp [parseLoop,shift]
theorem Leads.reduce (reduce : action stack input.head? = .reduce stack') : Leads stack input stack' input := by
  intro fuel enough
  obtain ⟨fuel,rfl⟩ : ∃ n, fuel = n + 1 := ⟨fuel - 1,by omega⟩
  refine ⟨fuel,?_,?_⟩
  · have := reduces_weight (action_reduces reduce)
    simp only [measure] at enough ⊢
    omega
  · simp [parseLoop,reduce]
theorem yyparse_of_leads {e : Expr} (leads : Leads [] input [.expr e] []) : yyparse input = some e := by
  obtain ⟨fuel,enough,same⟩ := leads (3 * input.length + 1) (by simp [measure])
  obtain ⟨fuel,rfl⟩ : ∃ n, fuel = n + 1 := ⟨fuel - 1,by omega⟩
  have accept : action [.expr e] none = .accept e := rfl
  rw [yyparse,same]
  simp [parseLoop,accept]

end Leading

/-! ## What the parser builds -/

/-- The number of arguments of the operators that no function call stands for. -/
def fixedArity : Function → Option Nat
  | .Literal => some 0
  | .LogicalNotFn => some 1
  | .SequenceFn | .LogicalAndFn | .LogicalOrFn | .EqualityFn | .InequalityFn => some 2
  | _ => none
/-- The operators have the right number of arguments, all the way down. -/
inductive WellFormed : Expr → Prop where
  | mk (fn : Function) (name : Bytes) (argv : List Expr) (arity : ∀ n ∈ fixedArity fn, argv.length = n)
      (below : ∀ e ∈ argv, WellFormed e) : WellFormed (.mk fn name argv)

def WellFormedSymbol : Symbol → Prop
  | .expr e => WellFormed e
  | .args _ argv => ∀ e ∈ argv, WellFormed e
  | _ => True

private theorem registered_arity {name : Bytes} {fn : Function} (found : FindFunction name = some fn) :
    fixedArity fn = none := by
  have table : ∀ entry ∈ RegisterBuiltins ++ RegisterInstallFunctions, fixedArity entry.2 = none := by decide
  obtain ⟨before,after,split,-⟩ := lookup_eq_some_iff.mp found
  exact table (name,fn) (by rw [split]; simp)
private theorem operator_arity {op : Token} {level : Nat} {fn : Function} (known : operator op = some (level, fn)) :
    ∀ n ∈ fixedArity fn, n = 2 := by
  cases op <;> simp only [operator,Option.some.injEq,Prod.mk.injEq,reduceCtorEq] at known
  all_goals
    obtain ⟨-,rfl⟩ := known
    simp [fixedArity]

theorem wellFormed_node {fn : Function} {name : Bytes} {argv : List Expr} {rest : List Symbol}
    (arity : ∀ n ∈ fixedArity fn, argv.length = n) (below : ∀ e ∈ argv, WellFormed e)
    (others : ∀ symbol ∈ rest, WellFormedSymbol symbol) :
    ∀ symbol ∈ Symbol.expr (.mk fn name argv) :: rest, WellFormedSymbol symbol := by
  intro symbol member
  rcases mem_cons.mp member with rfl | later
  · exact WellFormed.mk fn name argv arity below
  · exact others symbol later
private theorem reduces_wellFormed (reduce : Reduces stack reduced)
    (formed : ∀ symbol ∈ stack, WellFormedSymbol symbol) : ∀ symbol ∈ reduced, WellFormedSymbol symbol := by
  have expr {e : Expr} (member : .expr e ∈ stack) : WellFormed e := formed (.expr e) member
  cases reduce with
  | string text rest => exact wellFormed_node (by simp [fixedArity]) (by simp) (by grind)
  | call name argv fn rest found =>
    exact wellFormed_node (by simp [registered_arity found]) (formed (.args name argv) (by simp)) (by grind)
  | ifThen cond e rest => exact wellFormed_node (by simp [fixedArity]) (by grind) (by grind)
  | ifElse cond e other rest => exact wellFormed_node (by simp [fixedArity]) (by grind) (by grind)
  | not e rest => exact wellFormed_node (by simp [fixedArity]) (by grind) (by grind)
  | binary left right op level fn rest known =>
    exact wellFormed_node (fun n fixed => (operator_arity known n fixed).symm) (by grind) (by grind)
  | next e name argv rest =>
    have before : ∀ e ∈ argv, WellFormed e := formed (.args name argv) (by simp)
    have longer : ∀ d ∈ argv ++ [e], WellFormed d := by
      intro d member
      rcases mem_append.mp member with old | new
      · exact before d old
      · exact expr (by simp [mem_singleton.mp new])
    intro symbol member
    rcases mem_cons.mp member with rfl | later
    · exact longer
    · exact formed symbol (by simp [later])
  | paren | semicolon | empty | first => grind [WellFormedSymbol]
theorem shifted_wellFormed (t : Token) (formed : ∀ symbol ∈ stack, WellFormedSymbol symbol) :
    ∀ symbol ∈ shifted stack t, WellFormedSymbol symbol := by
  unfold shifted
  split <;> simp_all [WellFormedSymbol]
theorem parseLoop_wellFormed (fuel : Nat) (stack : List Symbol) (input : List Token)
    (formed : ∀ symbol ∈ stack, WellFormedSymbol symbol) (parsed : parseLoop fuel stack input = some root) :
    WellFormed root := by
  induction fuel generalizing stack input with
  | zero => simp [parseLoop] at parsed
  | succ fuel ih =>
    unfold parseLoop at parsed
    split at parsed
    · exact ih _ _ (shifted_wellFormed _ formed) parsed
    · simp at parsed
    · exact ih _ _ (reduces_wellFormed (action_reduces ‹_›) formed) parsed
    · cases parsed
      exact formed (.expr root) (action_accepts ‹_›)
    · simp at parsed
theorem parseScript_wellFormed {text : Bytes} (parsed : parseScript text = some root) :
    WellFormed root := parseLoop_wellFormed _ [] _ (by simp) parsed

end Recovery.EdifyParser
