import Recovery.EdifyParser
import Mathlib.Data.List.TakeWhile

/-!
Scripts as trees, and how they are written down. A tree is printed with parentheses only where the
precedences need them and with its literals quoted.
-/
namespace Recovery.EdifyPrinting
open Memory Edify EdifyLexer Updater EdifyParser List

/-! ## Scripts -/

/-- A literal that the buffer of the lexer holds, without NUL. -/
structure Text where
  bytes : Bytes
  short : bytes.length < MAX_STRING_LEN
  clean : 0 ∉ bytes
structure Callee where
  name : Bytes
  fn : Function
  registered : FindFunction name = some fn

inductive Operator where
  | sequence | or | and | equal | unequal | concat
  deriving DecidableEq, Repr

def Operator.token : Operator → Token
  | sequence => .SEMICOLON
  | or => .OR
  | and => .AND
  | equal => .EQ
  | unequal => .NE
  | concat => .PLUS
/-- The levels of the operators; `!` is above them. -/
def Operator.level : Operator → Nat
  | sequence => 1
  | or => 3
  | and => 4
  | equal => 5
  | unequal => 5
  | concat => 6
def Operator.fn : Operator → Function
  | sequence => .SequenceFn
  | or => .LogicalOrFn
  | and => .LogicalAndFn
  | equal => .EqualityFn
  | unequal => .InequalityFn
  | concat => .ConcatFn

inductive Script where
  | literal (text : Text)
  | binary (op : Operator) (left right : Script)
  | not (e : Script)
  | ifThen (cond e : Script)
  | ifElse (cond e other : Script)
  | call (f : Callee) (argv : List Script)

mutual
def Script.tree : Script → Expr
  | .literal text => .mk .Literal text.bytes []
  | .binary op left right => Build op.fn [left.tree, right.tree]
  | .not e => Build .LogicalNotFn [e.tree]
  | .ifThen cond e => Build .IfElseFn [cond.tree, e.tree]
  | .ifElse cond e other => Build .IfElseFn [cond.tree, e.tree, other.tree]
  | .call f argv => .mk f.fn f.name (trees argv)
def trees : List Script → List Expr
  | [] => []
  | e :: rest => e.tree :: trees rest
end

/-! ## Writing them down -/

/-- What a text is made of: quoted literals, names of functions, and the tokens that have one
    spelling. -/
inductive Lexeme where
  | quoted (text : Text)
  | name (f : Callee)
  | operator (op : Operator)
  | not | lparen | rparen | comma | if | then | else | endif

def Lexeme.token : Lexeme → Token
  | quoted text => .STRING text.bytes
  | name f => .STRING f.name
  | operator op => op.token
  | not => .NOT
  | lparen => .LPAREN
  | rparen => .RPAREN
  | comma => .COMMA
  | .if => .IF
  | .then => .THEN
  | .else => .ELSE
  | .endif => .ENDIF

def quoteByte (c : UInt8) : Bytes :=
  if c = 34 then ascii "\\\"" else if c = 92 then ascii "\\\\" else if c = 10 then ascii "\\n"
  else if c = 9 then ascii "\\t" else [c]
def quote (text : Bytes) : Bytes := 34 :: text.flatMap quoteByte ++ [34]
def Operator.spelling : Operator → Bytes
  | sequence => ascii ";"
  | or => ascii "||"
  | and => ascii "&&"
  | equal => ascii "=="
  | unequal => ascii "!="
  | concat => ascii "+"
def Lexeme.spelling : Lexeme → Bytes
  | quoted text => quote text.bytes
  | name f => f.name
  | operator op => op.spelling
  | not => ascii "!"
  | lparen => ascii "("
  | rparen => ascii ")"
  | comma => ascii ","
  | .if => ascii "if"
  | .then => ascii "then"
  | .else => ascii "else"
  | .endif => ascii "endif"
def write (lexemes : List Lexeme) : Bytes := lexemes.flatMap fun l => l.spelling ++ [32]

def parenthesize (needed : Bool) (lexemes : List Lexeme) : List Lexeme :=
  if needed then .lparen :: lexemes ++ [.rparen] else lexemes

def commas : List (List Lexeme) → List Lexeme
  | [] => []
  | [part] => part
  | part :: rest => part ++ .comma :: commas rest

mutual
/-- The lexemes of a script at a place where only operators of a level from `level` on may stand
    without parentheses. -/
def Script.print (level : Nat) : Script → List Lexeme
  | .literal text => [.quoted text]
  | .binary op left right =>
    parenthesize (op.level < level) (left.print op.level ++ .operator op :: right.print (op.level + 1))
  | .not e => .not :: e.print notPrecedence
  | .ifThen cond e => .if :: cond.print 0 ++ .then :: e.print 0 ++ [.endif]
  | .ifElse cond e other => .if :: cond.print 0 ++ .then :: e.print 0 ++ .else :: other.print 0 ++ [.endif]
  | .call f argv => .name f :: .lparen :: commas (printArgs argv) ++ [.rparen]
def printArgs : List Script → List (List Lexeme)
  | [] => []
  | e :: rest => e.print 0 :: printArgs rest
end

/-- The ways to write a script at such a place: with more parentheses, and, at level 0, where a
    closing token follows, with semicolons behind it. -/
inductive Renders : Nat → Script → List Lexeme → Prop where
  | literal (level : Nat) (text : Text) : Renders level (.literal text) [.quoted text]
  | binary {level : Nat} (op : Operator) {left right : Script} {ls rs : List Lexeme} (high : level ≤ op.level)
      (onLeft : Renders op.level left ls) (onRight : Renders (op.level + 1) right rs) :
      Renders level (.binary op left right) (ls ++ .operator op :: rs)
  | not (level : Nat) {e : Script} {ls : List Lexeme} (below : Renders notPrecedence e ls) :
      Renders level (.not e) (.not :: ls)
  | ifThen (level : Nat) {cond e : Script} {cs ls : List Lexeme} (test : Renders 0 cond cs) (yes : Renders 0 e ls) :
      Renders level (.ifThen cond e) (.if :: cs ++ .then :: ls ++ [.endif])
  | ifElse (level : Nat) {cond e other : Script} {cs ls os : List Lexeme} (test : Renders 0 cond cs)
      (yes : Renders 0 e ls) (no : Renders 0 other os) :
      Renders level (.ifElse cond e other) (.if :: cs ++ .then :: ls ++ .else :: os ++ [.endif])
  | call (level : Nat) (f : Callee) {argv : List Script} {parts : List (List Lexeme)}
      (count : argv.length = parts.length) (below : ∀ p ∈ argv.zip parts, Renders 0 p.1 p.2) :
      Renders level (.call f argv) (.name f :: .lparen :: commas parts ++ [.rparen])
  | paren (level : Nat) {e : Script} {ls : List Lexeme} (inside : Renders 0 e ls) :
      Renders level e (.lparen :: ls ++ [.rparen])
  | semicolons (n : Nat) {e : Script} {ls : List Lexeme} (before : Renders 1 e ls) :
      Renders 0 e (ls ++ List.replicate n (.operator .sequence))

/-! ## Parsing -/

/-- The stack is at a place where an expression is read whose operators have a level from
    `level` on. -/
inductive Ready (level : Nat) : List Symbol → Prop where
  | bottom : Ready level []
  | paren (rest : List Symbol) : Ready level (.token .LPAREN :: rest)
  | cond (rest : List Symbol) : Ready level (.token .IF :: rest)
  | yes (rest : List Symbol) : Ready level (.token .THEN :: rest)
  | no (rest : List Symbol) : Ready level (.token .ELSE :: rest)
  | first (name : Bytes) (rest : List Symbol) : Ready level (.call name :: rest)
  | next (name : Bytes) (argv : List Expr) (rest : List Symbol) : Ready level (.token .COMMA :: .args name argv :: rest)
  | operand (op : Operator) (left : Expr) (rest : List Symbol) (low : op.level < level) :
      Ready level (.token op.token :: .expr left :: rest)
  | negated (rest : List Symbol) (high : notPrecedence ≤ level) : Ready level (.token .NOT :: rest)

def closers : List Token := [.RPAREN, .COMMA, .THEN, .ELSE, .ENDIF]
/-- What may follow such an expression: the end, a closing token or an operator that binds no
    closer. -/
inductive Follows (level : Nat) : Option Token → Prop where
  | finished : Follows level none
  | closer (t : Token) (closes : t ∈ closers) : Follows level (some t)
  | operator (op : Operator) (low : op.level ≤ level) : Follows level (some op.token)

theorem Ready.mono {low high : Nat} {stack : List Symbol} (ready : Ready low stack) (le : low ≤ high) :
    Ready high stack := by
  cases ready with
  | operand op left rest below => exact .operand op left rest (by omega)
  | negated rest above => exact .negated rest (by omega)
  | bottom | paren | cond | yes | no | first | next => constructor
theorem Follows.mono {low high : Nat} {look : Option Token} (follows : Follows low look) (le : low ≤ high) :
    Follows high look := by
  cases follows with
  | finished => exact .finished
  | closer t closes => exact .closer t closes
  | operator op below => exact .operator op (by omega)

theorem Follows.below_not {level : Nat} {look : Option Token} (follows : Follows level look) :
    Follows notPrecedence look := by
  cases follows with
  | finished => exact .finished
  | closer t closes => exact .closer t closes
  | operator op => exact .operator op (by cases op <;> decide)

section Machine
variable {level : Nat} {stack : List Symbol} {input : List Token}

theorem leads_start (ready : Ready level stack) {t : Token} (starts : startsExpr t) :
    Leads stack (t :: input) (.token t :: stack) input := by
  have top : shifted stack t = .token t :: stack := by
    cases ready with
    | operand op => cases op <;> rfl
    | bottom | paren | cond | yes | no | first | next | negated => rfl
  rw [← top]
  apply Leads.shift
  cases ready with
  | bottom | paren | cond | yes | no | next | negated => simp [action,starts]
  | operand op left rest => cases op <;> simp [action,starts,Operator.token]
  | first name rest =>
    have other : t ≠ .RPAREN ∧ t ≠ .COMMA := by constructor <;> rintro rfl <;> simp [startsExpr] at starts
    simp [action,starts,other]
theorem leads_operator (ready : Ready level stack) (e : Expr) (op : Operator) (high : level ≤ op.level) :
    Leads (.expr e :: stack) (op.token :: input) (.token op.token :: .expr e :: stack) input := by
  apply Leads.shift
  cases ready with
  | bottom | paren | cond | yes | no | first | next =>
    cases op <;> simp [action,continueWith,Operator.token,EdifyParser.operator]
  | operand other left rest low =>
    have above : other.level < op.level := by omega
    have shift : action (.expr e :: .token other.token :: .expr left :: rest) (some op.token) = .shift := by
      cases other <;> cases op <;> first | rfl | exact absurd above (by decide)
    exact shift
  | negated rest above =>
    have : op.level < notPrecedence := by cases op <;> decide
    omega

private theorem leads_binary (op : Operator) (left right : Expr) (follows : Follows op.level input.head?) :
    Leads (.expr right :: .token op.token :: .expr left :: stack) input (.expr (Build op.fn [left,right]) :: stack)
      input := by
  apply Leads.reduce
  generalize input.head? = look at follows
  cases follows with
  | finished => cases op <;> rfl
  | closer t closes =>
    simp only [closers,mem_cons,not_mem_nil,or_false] at closes
    rcases closes with rfl | rfl | rfl | rfl | rfl <;> cases op <;> rfl
  | operator other low => cases op <;> cases other <;> first | rfl | exact absurd low (by decide)
theorem Follows.not_start {look : Option Token} (follows : Follows level look) : look.any startsExpr = false := by
  cases follows with
  | finished => rfl
  | closer t closes =>
    have none : ∀ t ∈ closers, startsExpr t = false := by decide
    simpa using none t closes
  | operator op => cases op <;> rfl
private theorem leads_literal (text : Bytes) (follows : Follows level input.head?) :
    Leads (.token (.STRING text) :: stack) input (.expr (.mk .Literal text []) :: stack) input := by
  apply Leads.reduce
  have other : input.head? ≠ some .LPAREN := by
    intro paren
    have := follows.not_start
    simp [paren,startsExpr] at this
  simp [action,other]
private theorem leads_semicolons (ready : Ready 0 stack) (e : Expr) (n : Nat) (follows : Follows 0 input.head?) :
    Leads (.expr e :: stack) (List.replicate n Token.SEMICOLON ++ input) (.expr e :: stack) input := by
  induction n with
  | zero => exact .refl _ _
  | succ n ih =>
    have next : Follows 1 (replicate n Token.SEMICOLON ++ input).head? := by
      cases n with
      | zero => exact follows.mono (by omega)
      | succ n => exact .operator .sequence le_rfl
    refine (leads_operator ready e .sequence (by decide)).trans (.trans (.reduce ?_) ih)
    exact (if_neg (by rw [next.not_start]; decide) : action (.token .SEMICOLON :: .expr e :: stack) _ = _)

/-- The stack where an argument is read, after `got`. -/
inductive Slot (name : Bytes) (rest : List Symbol) : List Expr → List Symbol → Prop where
  | first : Slot name rest [] (.call name :: rest)
  | next (got : List Expr) : Slot name rest got (.token .COMMA :: .args name got :: rest)

theorem Slot.ready {name : Bytes} {rest : List Symbol} {got : List Expr} (slot : Slot name rest got stack) :
    Ready level stack := by
  cases slot with
  | first => exact .first ..
  | next => exact .next ..
theorem Slot.leads {name : Bytes} {rest : List Symbol} {got : List Expr} (slot : Slot name rest got stack) (e : Expr)
    (ends : input.head? = some .RPAREN ∨ input.head? = some .COMMA) :
    Leads (.expr e :: stack) input (.args name (got ++ [e]) :: rest) input := by
  apply Leads.reduce
  cases slot with
  | first => simp [action,ends]
  | next => simp [action,ends]

end Machine

/-- The machine reads a script from its lexemes, from every stack that waits for one and before
    everything that may follow. -/
def Read (level : Nat) (e : Script) (ls : List Lexeme) : Prop :=
  ∀ {stack : List Symbol} {input : List Token}, Ready level stack → Follows level input.head? →
    Leads stack (ls.map Lexeme.token ++ input) (.expr e.tree :: stack) input

private theorem args_read {argv : List Script} {parts : List (List Lexeme)} (count : argv.length = parts.length)
    (some : argv ≠ []) (below : ∀ p ∈ argv.zip parts, Read 0 p.1 p.2) {name : Bytes} {rest stack : List Symbol}
    {got : List Expr} (slot : Slot name rest got stack) (input : List Token) :
    Leads stack ((commas parts).map Lexeme.token ++ .RPAREN :: input) (.args name (got ++ trees argv) :: rest)
      (.RPAREN :: input) := by
  induction argv generalizing parts stack got with
  | nil => exact absurd rfl some
  | cons e argv ih =>
    match parts, count with
    | [part], count =>
      obtain rfl : argv = [] := by simpa using count
      have only : Read 0 e part := below (e,part) (by simp)
      exact (only slot.ready (.closer .RPAREN (by decide))).trans (slot.leads _ (.inl rfl))
    | part :: next :: parts, count =>
      have first : Read 0 e part := below (e,part) (by simp)
      have others := ih (by simpa using count) (by rintro rfl; simp at count)
        (fun p member => below p (mem_cons_of_mem _ member)) (.next (got ++ [e.tree]))
      simp only [commas,map_append,map_cons,append_assoc,cons_append] at others ⊢
      refine (first slot.ready (.closer .COMMA (by decide))).trans ?_
      refine (slot.leads _ (.inr rfl)).trans ((Leads.shift rfl).trans others)

private theorem renders_read {level : Nat} {e : Script} {ls : List Lexeme} (renders : Renders level e ls) : Read level e ls := by
  -- the rest of the stack never matters, and of the input only whether its operator binds closer
  induction renders with
  | literal level text =>
    intro stack input ready follows
    exact (leads_start ready rfl).trans (leads_literal text.bytes follows)
  | binary op high _ _ onLeft onRight =>
    intro stack input ready follows
    simp only [map_append,map_cons,append_assoc,cons_append]
    refine .trans (onLeft (ready.mono high) ?_) (.trans (leads_operator ready _ op high) ?_)
    · exact .operator op le_rfl
    · refine (onRight (.operand op _ _ (by omega)) (follows.mono (by omega))).trans ?_
      exact leads_binary op _ _ (follows.mono high)
  | not level _ below =>
    intro stack input ready follows
    refine (leads_start ready rfl).trans ?_
    exact (below (.negated _ le_rfl) follows.below_not).trans (.reduce rfl)
  | ifThen level _ _ test yes =>
    intro stack input ready follows
    simp only [map_append,map_cons,append_assoc,cons_append]
    refine (leads_start ready rfl).trans ?_
    refine (test (.cond _) (.closer .THEN (by decide))).trans ((Leads.shift rfl).trans ?_)
    refine (yes (.yes _) (.closer .ENDIF (by decide))).trans ((Leads.shift rfl).trans ?_)
    exact .reduce rfl
  | ifElse level _ _ _ test yes no =>
    intro stack input ready follows
    simp only [map_append,map_cons,append_assoc,cons_append]
    refine (leads_start ready rfl).trans ?_
    refine (test (.cond _) (.closer .THEN (by decide))).trans ((Leads.shift rfl).trans ?_)
    refine (yes (.yes _) (.closer .ELSE (by decide))).trans ((Leads.shift rfl).trans ?_)
    refine (no (.no _) (.closer .ENDIF (by decide))).trans ((Leads.shift rfl).trans ?_)
    exact .reduce rfl
  | @call level f argv parts count _ below =>
    intro stack input ready follows
    have closing : Leads (.args f.name (trees argv) :: stack) (.RPAREN :: input)
        (.expr (.mk f.fn f.name (trees argv)) :: stack) input :=
      (Leads.shift rfl).trans (.reduce (by simp [shifted,action,f.registered]))
    simp only [map_append,map_cons,append_assoc,cons_append]
    refine (leads_start ready rfl).trans ((Leads.shift rfl).trans (.trans ?_ closing))
    by_cases empty : argv = []
    · subst empty
      obtain rfl : parts = [] := length_eq_zero_iff.mp count.symm
      exact .reduce rfl
    · exact args_read count empty below .first input
  | paren level _ inside =>
    intro stack input ready follows
    simp only [map_append,map_cons,append_assoc,cons_append]
    refine (leads_start ready rfl).trans ?_
    refine (inside (.paren _) (.closer .RPAREN (by decide))).trans ((Leads.shift rfl).trans ?_)
    exact .reduce rfl
  | semicolons n _ before =>
    intro stack input ready follows
    simp only [map_append,map_replicate,append_assoc]
    refine (before (ready.mono (by omega)) ?_).trans (leads_semicolons ready _ n follows)
    cases n with
    | zero => exact follows.mono (by omega)
    | succ n => exact .operator .sequence le_rfl

/-! ## Lexing -/

private theorem quotedString_byte (buffer rest : Bytes) (c : UInt8) :
    quotedString buffer (quoteByte c ++ rest) = quotedString (buffer ++ [c]) rest := by
  unfold quoteByte
  split_ifs with quote backslash newline tab
  · subst quote; rfl
  · subst backslash; rfl
  · subst newline; rfl
  · subst tab; rfl
  · rw [singleton_append,quotedString]
    all_goals simp_all
private theorem quotedString_quote (buffer text rest : Bytes) :
    quotedString buffer (text.flatMap quoteByte ++ 34 :: rest) = (buffer ++ text, some rest) := by
  induction text generalizing buffer with
  | nil => simp [quotedString]
  | cons c text ih =>
    rw [flatMap_cons,append_assoc,quotedString_byte,ih]
    simp
private theorem stringToken_text (text : Text) : stringToken text.bytes = .STRING text.bytes := by
  have clean : text.bytes.takeWhile (· != 0) = text.bytes := by
    apply takeWhile_eq_self_iff.mpr
    intro c member
    simpa using fun zero : c = 0 => text.clean (zero ▸ member)
  rw [stringToken,if_pos text.short,clean]
theorem registered_word (f : Callee) :
    f.name ≠ [] ∧ (∀ c ∈ f.name, isWord c) ∧ wordToken f.name = .STRING f.name := by
  have table : ∀ entry ∈ RegisterBuiltins ++ RegisterInstallFunctions,
      entry.1 ≠ [] ∧ entry.1.all isWord = true ∧ wordToken entry.1 = .STRING entry.1 := by
    decide +kernel
  obtain ⟨before,after,split,-⟩ := lookup_eq_some_iff.mp f.registered
  obtain ⟨some,letters,token⟩ := table (f.name,f.fn) (by rw [split]; simp)
  exact ⟨some,all_eq_true.mp letters,token⟩
theorem yylex_name {name : Bytes} (rest : Bytes) (some : name ≠ []) (letters : ∀ c ∈ name, isWord c) :
    yylex (name ++ 32 :: rest) = wordToken name :: yylex rest := by
  obtain ⟨c,word,rfl⟩ := exists_cons_of_ne_nil some
  rw [yylex_word letters (by simp [isWord]),yylex_blank]

theorem yylex_lexeme (l : Lexeme) (rest : Bytes) : yylex (l.spelling ++ 32 :: rest) = l.token :: yylex rest := by
  cases l with
  | quoted text =>
    have closed := quotedString_quote [] text.bytes (32 :: rest)
    rw [Lexeme.spelling,quote,append_assoc,cons_append,singleton_append,yylex_quoted closed,
      yylex_blank,nil_append,stringToken_text]
    rfl
  | name f =>
    obtain ⟨some,letters,token⟩ := registered_word f
    rw [Lexeme.spelling,yylex_name rest some letters,token]
    rfl
  | operator op =>
    cases op
    all_goals exact (yylex_mark (by decide)).trans (congrArg _ (yylex_blank rest))
  | not | lparen | rparen | comma => exact (yylex_mark (by decide)).trans (congrArg _ (yylex_blank rest))
  | «if» | «then» | «else» | endif => exact yylex_name rest (by decide) (all_eq_true.mp (by decide))
theorem yylex_write (ls : List Lexeme) : yylex (write ls) = ls.map Lexeme.token := by
  induction ls with
  | nil => rfl
  | cons l ls ih =>
    rw [write,flatMap_cons,append_assoc,singleton_append,yylex_lexeme]
    exact congrArg _ ih

/-! ## Printing -/

mutual
theorem print_renders (level : Nat) (e : Script) : Renders level e (e.print level) := by
  cases e with
  | literal text => exact .literal level text
  | binary op left right =>
    have bare {level : Nat} (high : level ≤ op.level) :=
      Renders.binary op high (print_renders op.level left) (print_renders (op.level + 1) right)
    rw [Script.print,parenthesize]
    split
    · exact .paren level (bare (Nat.zero_le _))
    · exact bare (by simp_all)
  | not e => exact .not level (print_renders _ e)
  | ifThen cond e => exact .ifThen level (print_renders 0 cond) (print_renders 0 e)
  | ifElse cond e other => exact .ifElse level (print_renders 0 cond) (print_renders 0 e) (print_renders 0 other)
  | call f argv => exact .call level f (printArgs_renders argv).1 (printArgs_renders argv).2
theorem printArgs_renders (argv : List Script) :
    argv.length = (printArgs argv).length ∧ ∀ p ∈ argv.zip (printArgs argv), Renders 0 p.1 p.2 := by
  cases argv with
  | nil => simp [printArgs]
  | cons e argv =>
    obtain ⟨count,below⟩ := printArgs_renders argv
    have first := print_renders 0 e
    constructor
    · simp [printArgs,count]
    · intro p member
      rcases mem_cons.mp member with rfl | later
      · exact first
      · exact below p later
end

def printScript (e : Script) : Bytes := write (e.print 0)

theorem renders_parse {e : Script} {ls : List Lexeme} (renders : Renders 0 e ls) :
    parseScript (write ls) = some e.tree := by
  have read : Leads [] (ls.map Lexeme.token ++ []) [.expr e.tree] [] := renders_read renders .bottom .finished
  rw [parseScript,yylex_write]
  rw [append_nil] at read
  exact yyparse_of_leads read

/-- Printing and parsing gives back the tree, also with semicolons before closing tokens and with
    parentheses that are not needed. -/
theorem print_parse_roundtrip (e : Script) :
    parseScript (printScript e) = some e.tree ∧
      ∀ ls : List Lexeme, Renders 0 e ls → parseScript (write ls) = some e.tree :=
  ⟨renders_parse (print_renders 0 e), fun _ renders => renders_parse renders⟩

def sample : Script :=
  .call ⟨ascii "ifelse", .IfElseFn, by decide⟩
    [.not (.literal ⟨ascii "a", by decide, by decide⟩),
      .binary .concat (.literal ⟨ascii "b", by decide, by decide⟩) (.literal ⟨ascii "c", by decide, by decide⟩)]
/-- It may be written with a semicolon after each argument. -/
theorem sample_semicolons_parse :
    parseScript (write [.name ⟨ascii "ifelse", .IfElseFn, by decide⟩, .lparen, .not,
      .quoted ⟨ascii "a", by decide, by decide⟩, .operator .sequence, .comma,
      .quoted ⟨ascii "b", by decide, by decide⟩, .operator .concat, .quoted ⟨ascii "c", by decide, by decide⟩,
      .operator .sequence, .rparen]) = some sample.tree := by
  refine (print_parse_roundtrip sample).2 _ (@Renders.call 0 _ _ [[.not, _, _], [_, _, _, _]] rfl ?_)
  intro p member
  rcases mem_cons.mp member with rfl | last
  · exact .semicolons 1 (.not 1 (.literal _ _))
  · obtain rfl := mem_singleton.mp last
    exact .semicolons 1 (.binary .concat (by decide) (.literal _ _) (.literal _ _))

end Recovery.EdifyPrinting
