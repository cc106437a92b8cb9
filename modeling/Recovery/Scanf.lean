import Recovery.Memory

/-!
The part of `fscanf` that reads bytes, numbers and literal characters. A format is a list of
directives; reading stops at the first one that fails, and the caller gets what was assigned until
then.
-/
namespace Recovery.Scanf
open Memory List

/-! ## Numbers -/

inductive Conversion where
  | d | i | u | x
  deriving DecidableEq, Repr

def isSpace (c : UInt8) : Bool := c == 32 || (9 ≤ c && c ≤ 13)
def digit (c : UInt8) : Option Nat :=
  if 48 ≤ c && c ≤ 57 then some (c.toNat - 48)
  else if 97 ≤ c && c ≤ 102 then some (c.toNat - 87)
  else if 65 ≤ c && c ≤ 70 then some (c.toNat - 55)
  else none
def isDigit (base : Nat) (c : UInt8) : Bool := (digit c).any (· < base)
def digitsValue (base : Nat) (digits : Bytes) : Nat := digits.foldl (fun n c => n * base + (digit c).getD 0) 0

/-- Whether there is a minus sign, and what is behind the sign. -/
def splitSign : Bytes → Bool × Bytes
  | 45 :: rest => (true, rest)
  | 43 :: rest => (false, rest)
  | text => (false, text)
def hexMark : Bytes → Bool
  | 48 :: x :: c :: _ => (x == 120 || x == 88) && isDigit 16 c
  | _ => false
/-- The base of a number, and where its digits begin. -/
def radix (conversion : Conversion) (text : Bytes) : Nat × Bytes :=
  match conversion with
  | .d | .u => (10, text)
  | .x => (16, if hexMark text then text.drop 2 else text)
  | .i => if hexMark text then (16, text.drop 2) else if text.head? = some 48 then (8, text) else (10, text)
/-- What is stored in a word of 32 bits. The number is cut to the ends of 64 bits before. -/
def stored (conversion : Conversion) (negative : Bool) (value : Nat) : Int :=
  match conversion with
  | .d | .i => wrap 32 (if negative then max (-value) (-(2 ^ 63)) else min value (2 ^ 63 - 1))
  | .u | .x => unsigned 32 (if value < 2 ^ 64 then (if negative then -value else value) else 2 ^ 64 - 1)
/-- The number at the start of a text, and what is behind it. -/
def number (conversion : Conversion) (text : Bytes) : Option (Int × Bytes) :=
  let (negative, body) := splitSign text
  let (base, start) := radix conversion body
  let digits := start.takeWhile (isDigit base)
  if digits.isEmpty then none
  else some (stored conversion negative (digitsValue base digits), start.dropWhile (isDigit base))

/-! ## Formats -/

inductive Directive where
  | space
  | literal (c : UInt8)
  | char
  | number (conversion : Conversion)
  deriving DecidableEq, Repr

/-- What was assigned, what is left of the input, and whether all directives matched. -/
structure Scan where
  assigned : List Int
  rest : Bytes
  complete : Bool
  deriving DecidableEq, Repr

def Scan.assign (value : Int) (scan : Scan) : Scan := { scan with assigned := value :: scan.assigned }

/-- A number that fails may have taken a sign; that is not kept, since no caller reads on behind it. -/
def fscanf : List Directive → Bytes → Scan
  | [], text => ⟨[], text, true⟩
  | .space :: format, text => fscanf format (text.dropWhile isSpace)
  | .literal c :: format, text => match text with
    | [] => ⟨[], [], false⟩
    | d :: rest => if d = c then fscanf format rest else ⟨[], text, false⟩
  | .char :: format, text => match text with
    | [] => ⟨[], [], false⟩
    | d :: rest => (fscanf format rest).assign d.toNat
  | .number conversion :: format, text => match number conversion (text.dropWhile isSpace) with
    | none => ⟨[], text.dropWhile isSpace, false⟩
    | some (value, rest) => (fscanf format rest).assign value

/-- The text begins with all of the format; its conversions have the given values. -/
def Matches (format : List Directive) (text : Bytes) (values : List Int) (rest : Bytes) : Prop :=
  fscanf format text = ⟨values, rest, true⟩

def conversions : List Directive → Nat
  | [] => 0
  | .char :: format | .number _ :: format => conversions format + 1
  | _ :: format => conversions format

@[simp] theorem assign_assigned (value : Int) (scan : Scan) :
    (scan.assign value).assigned = value :: scan.assigned := rfl
@[simp] theorem assign_rest (value : Int) (scan : Scan) : (scan.assign value).rest = scan.rest := rfl
@[simp] theorem assign_complete (value : Int) (scan : Scan) : (scan.assign value).complete = scan.complete := rfl

/-! ## Formats one after the other -/

/-- Goes on with the input that is left, if nothing failed. -/
def Scan.andThen (first : Scan) (later : Bytes → Scan) : Scan :=
  if first.complete then { later first.rest with assigned := first.assigned ++ (later first.rest).assigned } else first

theorem andThen_assign (value : Int) (first : Scan) (later : Bytes → Scan) :
    (first.assign value).andThen later = (first.andThen later).assign value := by
  unfold Scan.andThen
  by_cases complete : first.complete = true
  · rw [if_pos complete,if_pos (by simpa using complete)]
    rfl
  · rw [if_neg complete,if_neg (by simpa using complete)]

theorem fscanf_append (format other : List Directive) (text : Bytes) :
    fscanf (format ++ other) text = (fscanf format text).andThen (fscanf other) := by
  induction format generalizing text with
  | nil => simp [fscanf,Scan.andThen]
  | cons directive format ih =>
    rw [cons_append]
    cases directive with
    | space => exact ih _
    | literal c =>
      cases text with
      | nil => rfl
      | cons d rest =>
        by_cases same : d = c
        · simp only [fscanf,if_pos same]
          exact ih rest
        · simp [fscanf,same,Scan.andThen]
    | char =>
      cases text with
      | nil => rfl
      | cons d rest => rw [fscanf,fscanf,ih,andThen_assign]
    | number conversion =>
      rw [fscanf,fscanf]
      cases number conversion (text.dropWhile isSpace) with
      | none => rfl
      | some found => simp only [ih,andThen_assign]

variable {format : List Directive} {values : List Int}

theorem matches_append {other : List Directive} {text rest : Bytes} :
    Matches (format ++ other) text values rest ↔
      ∃ first mid second, Matches format text first mid ∧ Matches other mid second rest ∧ values = first ++ second := by
  unfold Matches
  rw [fscanf_append,Scan.andThen]
  rcases fscanf format text with ⟨first,mid,_ | _⟩
  · simp
  simp only [if_true,Scan.mk.injEq,and_true]
  constructor
  · rintro ⟨rfl,rfl,complete⟩
    exact ⟨first,mid,_,⟨rfl,rfl⟩,by rw [← complete],rfl⟩
  · rintro ⟨_,_,second,⟨rfl,rfl⟩,later,rfl⟩
    simp [later]

/-! ## What is assigned and left -/

theorem assigned_length (format : List Directive) (text : Bytes) :
    (fscanf format text).assigned.length ≤ conversions format ∧
      ((fscanf format text).complete = true → (fscanf format text).assigned.length = conversions format) := by
  induction format generalizing text with
  | nil => simp [fscanf,conversions]
  | cons directive format ih =>
    cases directive with
    | space => exact ih _
    | literal c =>
      cases text with
      | nil => simp [fscanf]
      | cons d rest =>
        by_cases same : d = c
        · simp only [fscanf,if_pos same,conversions]
          exact ih rest
        · simp [fscanf,same]
    | char =>
      cases text with
      | nil => simp [fscanf]
      | cons d rest => simpa [fscanf,conversions] using ih rest
    | number conversion =>
      rw [fscanf]
      cases number conversion (text.dropWhile isSpace) with
      | none => simp
      | some found => simpa [conversions] using ih found.2
theorem matches_values {text rest : Bytes}
    (read : Matches format text values rest) : values.length = conversions format := by
  have all := (assigned_length format text).2
  rw [read] at all
  exact all rfl
theorem conversions_append (format other : List Directive) :
    conversions (format ++ other) = conversions format + conversions other := by
  induction format with
  | nil => simp [conversions]
  | cons directive format ih => cases directive <;> simp [conversions,ih] <;> omega

theorem scan_cases (front : List Directive) (conversion : Conversion) (text : Bytes) :
    (∃ values rest, values.length = conversions front + 1 ∧ Matches (front ++ [.number conversion]) text values rest) ∨
      (fscanf (front ++ [.number conversion]) text).assigned.length ≤ conversions front ∧
        (fscanf (front ++ [.number conversion]) text).complete = false := by
  have bound := assigned_length front text
  unfold Matches
  rw [fscanf_append,Scan.andThen]
  by_cases complete : (fscanf front text).complete = true
  · rw [if_pos complete,fscanf]
    cases number conversion ((fscanf front text).rest.dropWhile isSpace) with
    | none =>
      right
      simp [bound.2 complete]
    | some found =>
      left
      refine ⟨(fscanf front text).assigned ++ [found.1],found.2,?_,rfl⟩
      rw [length_append,bound.2 complete,length_singleton]
  · right
    rw [if_neg complete]
    exact ⟨bound.1,by simpa using complete⟩

theorem number_length {conversion : Conversion} {text rest : Bytes} {value : Int}
    (found : number conversion text = some (value, rest)) : rest.length ≤ text.length := by
  have sign : (splitSign text).2.length ≤ text.length := by
    unfold splitSign
    split <;> simp
  have body (text : Bytes) : (radix conversion text).2.length ≤ text.length := by
    unfold radix
    cases conversion with
    | d | u => exact le_rfl
    | i => split_ifs <;> simp
    | x => dsimp only; split_ifs <;> simp
  have digits := (dropWhile_suffix (isDigit (radix conversion (splitSign text).2).1)
    (l := (radix conversion (splitSign text).2).2)).length_le
  unfold number at found
  simp only [Option.ite_none_left_eq_some,Option.some.injEq,Prod.mk.injEq] at found
  rw [← found.2.2]
  exact digits.trans ((body _).trans sign)
theorem fscanf_length (format : List Directive) (text : Bytes) : (fscanf format text).rest.length ≤ text.length := by
  have skipped (text : Bytes) : (text.dropWhile isSpace).length ≤ text.length := (dropWhile_suffix _).length_le
  induction format generalizing text with
  | nil => exact le_rfl
  | cons directive format ih =>
    cases directive with
    | space => exact (ih _).trans (skipped text)
    | literal c =>
      cases text with
      | nil => simp [fscanf]
      | cons d rest =>
        by_cases same : d = c
        · simp only [fscanf,if_pos same]
          exact (ih rest).trans (Nat.le_succ _)
        · simp [fscanf,same]
    | char =>
      cases text with
      | nil => simp [fscanf]
      | cons d rest => exact (ih rest).trans (Nat.le_succ _)
    | number conversion =>
      rw [fscanf]
      cases found : number conversion (text.dropWhile isSpace) with
      | none => exact skipped text
      | some result => exact (ih result.2).trans ((number_length found).trans (skipped text))
theorem matches_length {text rest : Bytes}
    (read : Matches format text values rest) : rest.length ≤ text.length := by
  have shorter := fscanf_length format text
  rw [read] at shorter
  exact shorter

end Recovery.Scanf
