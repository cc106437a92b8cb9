import Mathlib.Data.List.TakeWhile
import Recovery.Edify
import Recovery.ZipArchive

/-!
The comparisons of numbers in updater scripts, with a `long` of 32 bits and of 64.
-/
namespace Recovery.EdifyNumbers
open Memory Program Program.Prog Edify ZipArchive

/-- A number that `strtol` cuts to the ends of a long. -/
def cut (abi : Abi) (n : Int) : Int := max (-2 ^ (abi.bits - 1)) (min n (2 ^ (abi.bits - 1) - 1))
/-- `strtol`; the one of the model has 64 bits, so that the value is only cut more. -/
def strtol (abi : Abi) (text : Bytes) : Int × Bytes := (cut abi (Edify.strtol text).1, (Edify.strtol text).2)
def asInt (abi : Abi) (text : Bytes) : Option Int :=
  if text.isEmpty ∨ (strtol abi text).2 ≠ [] then none else some (strtol abi text).1
def lessThan (abi : Abi) (left right : Bytes) : Bool :=
  match asInt abi left, asInt abi right with
  | some l, some r => l < r
  | _, _ => false
def LessThanIntFn (abi : Abi) (argv : Args) : Run (Option Value) :=
  if argv.length ≠ 2 then do
    setError (ascii "less_than_int expects 2 arguments")
    pure none
  else do
    match ← ReadArgs argv 2 with
    | some [left, right] =>
      free left
      free right
      truth (lessThan abi left.text right.text)
    | _ => pure none
def GreaterThanIntFn (abi : Abi) (argv : Args) : Run (Option Value) :=
  if argv.length ≠ 2 then do
    setError (ascii "greater_than_int expects 2 arguments")
    pure none
  else LessThanIntFn abi [argument argv 1, argument argv 0]

private theorem strtol_range (text : Bytes) : -2 ^ 63 ≤ (Edify.strtol text).1 ∧ (Edify.strtol text).1 ≤ 2 ^ 63 - 1 := by
  unfold Edify.strtol
  simp only
  split_ifs <;> simp only <;> omega
private theorem strtol_wide : strtol lp64 = Edify.strtol := by
  funext text
  have range := strtol_range text
  simp only [strtol,cut,lp64]
  rw [max_eq_right (by omega),min_eq_left (by omega)]
private theorem lessThanIntFn_wide : LessThanIntFn lp64 = Edify.LessThanIntFn := by
  have same : asInt lp64 = Edify.asInt := by
    funext text
    simp only [asInt,Edify.asInt,strtol_wide]
  funext argv
  unfold LessThanIntFn Edify.LessThanIntFn lessThan
  exact same ▸ rfl

/-! ## Numerals -/

/-- A decimal integer: digits behind an optional sign, which is true for a minus. -/
structure Numeral where
  sign : Option Bool
  digits : Bytes
  some : digits ≠ []
  decimal : ∀ c ∈ digits, isDigit c = true

def Numeral.text (n : Numeral) : Bytes := (n.sign.map fun minus => if minus then 45 else 43).toList ++ n.digits
def Numeral.value (n : Numeral) : Int :=
  let magnitude : Nat := n.digits.foldl (fun value c => value * 10 + (c.toNat - 48)) 0
  if n.sign = .some true then -magnitude else magnitude

private theorem digit_kind {c : UInt8} (digit : isDigit c = true) : isSpace c = false ∧ c ≠ 45 ∧ c ≠ 43 := by
  simp only [isDigit,isSpace] at *
  grind
theorem cut_high (abi : Abi) (n : Int) : cut abi (min n (2 ^ 63 - 1)) = cut abi n := by
  unfold cut
  rcases abi.known with known | known <;> rw [known] <;> omega
private theorem cut_low (abi : Abi) (n : Int) : cut abi (-min n (2 ^ 63)) = cut abi (-n) := by
  unfold cut
  rcases abi.known with known | known <;> rw [known] <;> omega
private theorem strtol_numeral (abi : Abi) (n : Numeral) : strtol abi n.text = (cut abi n.value, []) := by
  obtain ⟨sign,digits,some,decimal⟩ := n
  obtain ⟨c,rest,rfl⟩ := List.exists_cons_of_ne_nil some
  obtain ⟨space,minus,plus⟩ := digit_kind (decimal c (by simp))
  have take : (c :: rest).takeWhile isDigit = c :: rest := List.takeWhile_eq_self_iff.mpr decimal
  have drop : (c :: rest).dropWhile isDigit = [] := List.dropWhile_eq_nil_iff.mpr decimal
  have spaces : isSpace 45 = false ∧ isSpace 43 = false := by decide
  rcases sign with _ | _ | _
  · simpa [strtol,Edify.strtol,Numeral.text,Numeral.value,space,take,drop,minus,plus] using cut_high abi _
  · simpa [strtol,Edify.strtol,Numeral.text,Numeral.value,spaces,take,drop] using cut_high abi _
  · simpa [strtol,Edify.strtol,Numeral.text,Numeral.value,spaces,take,drop] using cut_low abi _
private theorem asInt_numeral (abi : Abi) (n : Numeral) : asInt abi n.text = some (cut abi n.value) := by
  have text : n.text ≠ [] := by simp [Numeral.text,n.some]
  simp [asInt,strtol_numeral,text]

/-! ## Comparisons -/

/-- A program that always evaluates to a string. -/
def Gives (run : Run (Option Value)) (text : Bytes) : Prop :=
  ∀ s as, ∃ v t bs, run s as = ⟨some (some v), t, bs⟩ ∧ v.type = .VAL_STRING ∧ v.text = text

section
variable {argv : Args} {k : Nat} {run p q : Run (Option Value)} {text left right : Bytes}

theorem gives_literal (text : Bytes) : Gives (Literal text) text := fun _ _ => ⟨_,_,_,rfl,rfl,rfl⟩
theorem gives_iff (gives : Gives run left) : Gives run right ↔ left = right := by
  constructor
  · intro again
    obtain ⟨v,t,bs,done,-,rfl⟩ := gives ⟨none,[],0,[]⟩ []
    obtain ⟨w,u,cs,done',-,rfl⟩ := again ⟨none,[],0,[]⟩ []
    rw [done] at done'
    cases done'
    rfl
  · rintro rfl
    exact gives
theorem gives_argument (found : argv[k]? = some run) (gives : Gives run text) : Gives (argument argv k) text := by
  intro s as
  obtain ⟨v,t,bs,done,kind⟩ := gives { s with events := s.events ++ [.read k argv.length] } as
  refine ⟨v,t,bs,?_,kind⟩
  simp only [argument,push,bind_run,modify_run,next,found,done]
theorem gives_evaluate (found : argv[k]? = some run) (gives : Gives run text) : Gives (Evaluate argv k) text := by
  intro s as
  obtain ⟨v,t,bs,done,type,same⟩ := gives_argument found gives s as
  refine ⟨v,t,bs,?_,type,same⟩
  simp only [Evaluate,bind_run,next,done,asString,if_pos type,pure_run]
theorem gives_lessThan (abi : Abi) (first : Gives p left) (second : Gives q right) :
    Gives (LessThanIntFn abi [p,q]) (if lessThan abi left right then ascii "t" else []) := by
  intro s as
  obtain ⟨v,t,bs,done,-,rfl⟩ := gives_evaluate (show [p,q][0]? = some p from rfl) first s as
  obtain ⟨w,u,cs,done',-,rfl⟩ := gives_evaluate (show [p,q][1]? = some q from rfl) second t bs
  rw [LessThanIntFn,if_neg (by simp)]
  simp only [ReadArgs,readLoop,bind_run,next,done,done',pure_run,List.nil_append,List.cons_append]
  exact ⟨_,_,_,rfl,rfl,rfl⟩
private theorem gives_greaterThan (abi : Abi) (first : Gives p left) (second : Gives q right) :
    Gives (GreaterThanIntFn abi [p,q]) (if lessThan abi right left then ascii "t" else []) := by
  rw [GreaterThanIntFn,if_neg (by simp)]
  exact gives_lessThan abi (gives_argument rfl second) (gives_argument rfl first)

end

def Right (abi : Abi) (p q : Run (Option Value)) (a b : Int) : Prop :=
  Gives (LessThanIntFn abi [p, q]) (if a < b then ascii "t" else []) ∧
    Gives (GreaterThanIntFn abi [p, q]) (if b < a then ascii "t" else [])

/-- Two numbers are compared right exactly if they are equal, or not both at or beyond one end of a long. -/
theorem comparisons_right_iff (abi : Abi) (a b : Numeral) (p q : Run (Option Value)) (first : Gives p a.text)
    (second : Gives q b.text) : Right abi p q a.value b.value ↔ a.value = b.value ∨
      (a.value < 2 ^ (abi.bits - 1) - 1 ∨ b.value < 2 ^ (abi.bits - 1) - 1) ∧
      (-2 ^ (abi.bits - 1) < a.value ∨ -2 ^ (abi.bits - 1) < b.value) := by
  have answers {c d : Prop} [Decidable c] [Decidable d] :
      (if c then ascii "t" else []) = (if d then ascii "t" else []) ↔ (c ↔ d) := by
    by_cases c <;> by_cases d <;> simp [*, ascii]
  unfold Right
  rw [gives_iff (gives_lessThan abi first second), gives_iff (gives_greaterThan abi first second), answers, answers]
  simp only [lessThan, asInt_numeral, decide_eq_true_eq, cut]
  rcases abi.known with known | known <;> rw [known] <;> omega

def three : Numeral := ⟨none, ascii "3", by decide +kernel, by decide +kernel⟩
def minusFourteen : Numeral := ⟨some true, ascii "14", by decide +kernel, by decide +kernel⟩
theorem three_and_minusFourteen_right :
    Right ilp32 (Literal three.text) (Literal minusFourteen.text) three.value minusFourteen.value :=
  (comparisons_right_iff ilp32 three minusFourteen _ _ (gives_literal _) (gives_literal _)).mpr (by decide)
/-- A number beyond the end of a long is taken for the end. -/
theorem beyond_long_not_right : ¬ Right ilp32 (Literal (ascii "2147483647")) (Literal (ascii "2147483648"))
    2147483647 2147483648 := by
  rintro ⟨less, -⟩
  have same := (gives_iff (gives_lessThan ilp32 (gives_literal _) (gives_literal _))).mp less
  revert same
  decide

end Recovery.EdifyNumbers
