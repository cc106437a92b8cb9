import Mathlib.Algebra.GroupWithZero.Nat
import Mathlib.Data.List.Basic

/-!
Texts cut into records that each end with a mark. A text that is read in pieces gives the same records
piece by piece exactly when every piece ends with a record.
-/
namespace Recovery.Framing
open List
variable {α : Type} [DecidableEq α] (mark : α)

/-- The finished records, of which the first begins with `line`, and the unfinished rest. -/
def cutFrom : List α → List α → List (List α) × List α
  | line, [] => ([], line)
  | line, x :: text =>
    if x = mark then
      let (records, rest) := cutFrom [] text
      (line :: records, rest)
    else cutFrom (line ++ [x]) text
def records (text : List α) : List (List α) := (cutFrom mark [] text).1
def rest (text : List α) : List α := (cutFrom mark [] text).2

def joined (lines : List (List α)) : List α := lines.flatMap (· ++ [mark])

variable {mark}

theorem cutFrom_joins (line text : List α) :
    joined mark (cutFrom mark line text).1 ++ (cutFrom mark line text).2 = line ++ text := by
  induction text generalizing line with
  | nil => simp [cutFrom,joined]
  | cons x text ih =>
    rw [cutFrom]
    split
    · rename_i same
      have inner := ih []
      simp only [joined,flatMap_cons,append_assoc] at inner ⊢
      rw [inner,same]
      rfl
    · rw [ih,append_assoc,singleton_append]
theorem records_rest (text : List α) : joined mark (records mark text) ++ rest mark text = text := cutFrom_joins [] text

omit [DecidableEq α] in
theorem joined_append (front back : List (List α)) : joined mark (front ++ back) = joined mark front ++ joined mark back :=
  flatMap_append

theorem pieces_length (pieces : List (List α)) : (joined mark (pieces.flatMap (records mark))).length +
    (pieces.map fun piece => (rest mark piece).length).sum = pieces.flatten.length := by
  induction pieces with
  | nil => rfl
  | cons piece pieces ih =>
    have whole := congrArg length (show joined mark (records mark piece) ++ rest mark piece = piece from records_rest piece)
    simp only [flatMap_cons,joined_append,map_cons,sum_cons,flatten_cons,length_append] at ih whole ⊢
    omega

end Recovery.Framing
