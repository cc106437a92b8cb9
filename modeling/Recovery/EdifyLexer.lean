import Recovery.Memory

/-!
The lexer of updater scripts (edify/lexer.l). Flex takes the longest match, and of two matches
of one length the rule that stands first.
-/
namespace Recovery.EdifyLexer
open Memory List

/-- The tokens; `OVERRUN` stands for a string that does not fit its buffer. -/
inductive Token where
  | STRING (text : Bytes)
  | AND | OR | EQ | NE | IF | THEN | ELSE | ENDIF
  | PLUS | LPAREN | RPAREN | COMMA | NOT | SEMICOLON
  | BAD | OVERRUN
  deriving DecidableEq, Repr

def MAX_STRING_LEN : Nat := 1024

/-- `[a-zA-Z0-9_:/.]`. -/
def isWord (c : UInt8) : Bool :=
  (97 ≤ c && c ≤ 122) || (65 ≤ c && c ≤ 90) || (48 ≤ c && c ≤ 57) || c == 95 || c == 58 || c == 47 || c == 46
def hexValue (c : UInt8) : Option UInt8 :=
  if 48 ≤ c && c ≤ 57 then some (c - 48)
  else if 97 ≤ c && c ≤ 102 then some (c - 87)
  else if 65 ≤ c && c ≤ 70 then some (c - 55)
  else none

/-- The rules inside of quotes: the bytes of the string, and what follows the closing quote if
    there is one. A backslash that starts no escape stands for itself. -/
def quotedString : Bytes → Bytes → Bytes × Option Bytes
  | buffer, [] => (buffer, none)
  | buffer, 34 :: rest => (buffer, some rest)
  | buffer, 92 :: 110 :: rest => quotedString (buffer ++ [10]) rest
  | buffer, 92 :: 116 :: rest => quotedString (buffer ++ [9]) rest
  | buffer, 92 :: 34 :: rest => quotedString (buffer ++ [34]) rest
  | buffer, 92 :: 92 :: rest => quotedString (buffer ++ [92]) rest
  | buffer, 92 :: 120 :: high :: low :: rest =>
    match hexValue high, hexValue low with
    | some h, some l => quotedString (buffer ++ [h * 16 + l]) rest
    | _, _ => quotedString (buffer ++ [92]) (120 :: high :: low :: rest)
  | buffer, c :: rest => quotedString (buffer ++ [c]) rest

/-- `strdup` of the buffer: a string ends at its first NUL. -/
def stringToken (buffer : Bytes) : Token :=
  if buffer.length < MAX_STRING_LEN then .STRING (buffer.takeWhile (· != 0)) else .OVERRUN
def wordToken (word : Bytes) : Token :=
  if word = ascii "if" then .IF
  else if word = ascii "then" then .THEN
  else if word = ascii "else" then .ELSE
  else if word = ascii "endif" then .ENDIF
  else .STRING word
/-- The operators and marks, of one byte or of two, and what follows. -/
def markToken (c : UInt8) (rest : Bytes) : Token × Bytes :=
  if c = 38 ∧ rest.head? = some 38 then (.AND, rest.tail)
  else if c = 124 ∧ rest.head? = some 124 then (.OR, rest.tail)
  else if c = 61 ∧ rest.head? = some 61 then (.EQ, rest.tail)
  else if c = 33 ∧ rest.head? = some 61 then (.NE, rest.tail)
  else if c = 43 then (.PLUS, rest)
  else if c = 40 then (.LPAREN, rest)
  else if c = 41 then (.RPAREN, rest)
  else if c = 44 then (.COMMA, rest)
  else if c = 33 then (.NOT, rest)
  else if c = 59 then (.SEMICOLON, rest)
  else (.BAD, rest)

/-- The tokens of a text. Every round uses up a byte, so `fuel` is the length of the text. -/
def lexLoop : Nat → Bytes → List Token
  | 0, _ => []
  | _ + 1, [] => []
  | fuel + 1, c :: rest =>
    if c = 34 then
      match quotedString [] rest with
      | (buffer, some rest) => stringToken buffer :: lexLoop fuel rest
      | (buffer, none) => if buffer.length ≤ MAX_STRING_LEN then [] else [.OVERRUN]
    else if isWord c then
      wordToken ((c :: rest).takeWhile isWord) :: lexLoop fuel (rest.dropWhile isWord)
    else if c = 32 ∨ c = 9 ∨ c = 10 then lexLoop fuel rest
    else if c = 35 ∧ 10 ∈ rest then lexLoop fuel (rest.dropWhile (· != 10)).tail
    else (markToken c rest).1 :: lexLoop fuel (markToken c rest).2
def yylex (text : Bytes) : List Token := lexLoop text.length text

example : yylex (ascii "if \"a\\x62\\\"\" then b.c != !d # e\n endif") =
    [.IF, .STRING (ascii "ab\""), .THEN, .STRING (ascii "b.c"), .NE, .NOT, .STRING (ascii "d"), .ENDIF] := by
  decide +kernel

/-! ## Rounds of the lexer -/

theorem quotedString_rest (buffer text rest : Bytes) (closed : (quotedString buffer text).2 = some rest) :
    rest.length < text.length := by
  fun_induction quotedString buffer text <;> grind
theorem markToken_rest (c : UInt8) (rest : Bytes) : (markToken c rest).2.length ≤ rest.length := by
  unfold markToken
  split_ifs <;> simp

theorem lexLoop_fuel (fuel : Nat) (text : Bytes) (enough : text.length ≤ fuel) : lexLoop fuel text = yylex text := by
  have same : ∀ (n m : Nat) (text : Bytes), text.length ≤ n → text.length ≤ m → lexLoop n text = lexLoop m text := by
    intro n
    induction n with
    | zero =>
      intro m text none _
      obtain rfl : text = [] := length_eq_zero_iff.mp (by omega)
      cases m <;> rfl
    | succ n ih =>
      intro m text low high
      cases text with
      | nil => cases m <;> rfl
      | cons c rest =>
        obtain ⟨m,rfl⟩ : ∃ k, m = k + 1 := ⟨m - 1,by simp only [length_cons] at high; omega⟩
        have same (left : Bytes) (shorter : left.length ≤ rest.length) : lexLoop n left = lexLoop m left :=
          ih m left (by simp only [length_cons] at low; omega) (by simp only [length_cons] at high; omega)
        rw [lexLoop,lexLoop]
        have comment : (rest.dropWhile (· != 10)).tail.length ≤ rest.length := by
          rw [length_tail]
          have := (dropWhile_sublist (· != 10) (l := rest)).length_le
          omega
        rw [same _ (dropWhile_sublist isWord).length_le,same rest le_rfl,same _ comment,
          same _ (markToken_rest c rest)]
        split
        · cases closed : quotedString [] rest with
          | mk buffer after =>
            cases after with
            | none => rfl
            | some after =>
              have := quotedString_rest [] rest after (by rw [closed])
              simp only [same after (by omega)]
        · rfl
  exact same _ _ text enough le_rfl

theorem yylex_blank (rest : Bytes) : yylex (32 :: rest) = yylex rest := by
  rw [yylex,length_cons,lexLoop]
  simp [isWord,yylex]
theorem yylex_quoted {text buffer rest : Bytes} (closed : quotedString [] text = (buffer, some rest)) :
    yylex (34 :: text) = stringToken buffer :: yylex rest := by
  have shorter := quotedString_rest [] text rest (by rw [closed])
  rw [yylex,length_cons,lexLoop,if_pos rfl,closed]
  exact congrArg _ (lexLoop_fuel _ _ (by omega))
theorem yylex_word {word rest : Bytes} {c : UInt8} (letters : ∀ d ∈ c :: word, isWord d)
    (stops : ∀ d ∈ rest.head?, isWord d = false) : yylex (c :: word ++ rest) = wordToken (c :: word) :: yylex rest := by
  have first : isWord c := letters c (by simp)
  have quote : c ≠ 34 := by rintro rfl; exact absurd first (by decide)
  have more : ∀ d ∈ word, isWord d := fun d member => letters d (mem_cons_of_mem _ member)
  have take : (word ++ rest).takeWhile isWord = word := by
    rw [takeWhile_append_of_pos more]
    cases rest with
    | nil => simp
    | cons d rest => simp [stops d rfl]
  have drop : (word ++ rest).dropWhile isWord = rest := by
    rw [dropWhile_append_of_pos more]
    cases rest with
    | nil => simp
    | cons d rest => simp [stops d rfl]
  rw [yylex,cons_append,length_cons,lexLoop,if_neg quote,if_pos first,takeWhile_cons_of_pos first,
    take,drop]
  exact congrArg _ (lexLoop_fuel _ _ (by simp))
theorem yylex_mark {c : UInt8} {rest : Bytes} (mark : c ∈ ascii "&|=!+(),;") :
    yylex (c :: rest) = (markToken c rest).1 :: yylex (markToken c rest).2 := by
  have kind : c ≠ 34 ∧ isWord c = false ∧ ¬ (c = 32 ∨ c = 9 ∨ c = 10) ∧ c ≠ 35 := by
    revert c
    decide +kernel
  obtain ⟨quote,word,blank,comment⟩ := kind
  rw [yylex,length_cons,lexLoop,if_neg quote,if_neg (by simp [word]),if_neg blank,
    if_neg (fun both => comment both.1)]
  exact congrArg _ (lexLoop_fuel _ _ (markToken_rest c rest))

end Recovery.EdifyLexer
