import Mathlib.Algebra.GroupWithZero.Nat
import Mathlib.Tactic.Common

/-!
Lists cut at separators into tokens that are not empty, as `strtok` does it when it is
called again and again.
-/
namespace Recovery.Tokens
open List

variable {α : Type} (sep : α → Bool)

/-- The tokens, of which the first begins with `word`. -/
def tokensFrom (word : List α) : List α → List (List α)
  | [] => if word.isEmpty then [] else [word]
  | x :: rest =>
    if sep x then (if word.isEmpty then tokensFrom [] rest else word :: tokensFrom [] rest)
    else tokensFrom (word ++ [x]) rest
def tokens (text : List α) : List (List α) := tokensFrom sep [] text

/-- A token of its own: not empty, and without separators. -/
structure Word (word : List α) : Prop where
  some : word ≠ []
  clean : ∀ x ∈ word, sep x = false

variable {sep}

theorem tokensFrom_clean (word : List α) {more : List α} (clean : ∀ x ∈ more, sep x = false) (rest : List α) :
    tokensFrom sep word (more ++ rest) = tokensFrom sep (word ++ more) rest := by
  induction more generalizing word with
  | nil => rw [nil_append,append_nil]
  | cons x more ih =>
    have here : sep x = false := clean x mem_cons_self
    rw [cons_append,tokensFrom,here,if_neg (by decide),
      ih (word ++ [x]) fun y member => clean y (mem_cons_of_mem x member),append_assoc,singleton_append]

theorem tokens_word {word : List α} (isWord : Word sep word) {c : α} (ends : sep c = true) (rest : List α) :
    tokens sep (word ++ c :: rest) = word :: tokens sep rest := by
  have some : word.isEmpty = false := by simpa using isWord.some
  rw [tokens,tokensFrom_clean [] isWord.clean,nil_append,tokensFrom,if_pos ends,some]
  rfl
theorem tokens_last {word : List α} (isWord : Word sep word) : tokens sep word = [word] := by
  have all := tokensFrom_clean [] isWord.clean []
  rw [append_nil,nil_append] at all
  rw [tokens,all,tokensFrom,if_neg (by simpa using isWord.some)]

variable {words : List (List α)}

theorem tokens_lines (areWords : ∀ word ∈ words, Word sep word) {c : α} (ends : sep c = true)
    (rest : List α) : tokens sep ((words.flatMap fun word => word ++ [c]) ++ rest) = words ++ tokens sep rest := by
  induction words with
  | nil => rfl
  | cons word words ih =>
    rw [flatMap_cons,append_assoc,append_assoc,singleton_append,
      tokens_word (areWords word mem_cons_self) ends,
      ih fun other member => areWords other (mem_cons_of_mem word member),cons_append]
theorem tokens_dropLast (areWords : ∀ word ∈ words, Word sep word) {c : α} (ends : sep c = true) :
    tokens sep (words.flatMap fun word => word ++ [c]).dropLast = words := by
  rcases eq_nil_or_concat words with rfl | ⟨front,word,rfl⟩
  · rfl
  · rw [concat_eq_append] at areWords ⊢
    rw [flatMap_append,flatMap_singleton,← append_assoc,dropLast_concat,
      tokens_lines (fun other member => areWords other (mem_append_left _ member)) ends,
      tokens_last (areWords word (by simp))]

theorem tokensFrom_word (word : List α) {text : List α} (clean : ∀ x ∈ word, sep x = false) {token : List α}
    (member : token ∈ tokensFrom sep word text) : Word sep token ∧ token ⊆ word ++ text := by
  induction text generalizing word with
  | nil =>
    rw [tokensFrom] at member
    split at member
    · cases member
    · rename_i some
      obtain rfl := mem_singleton.mp member
      exact ⟨⟨by simpa using some,clean⟩,by simp⟩
  | cons x text ih =>
    rw [tokensFrom] at member
    have later (found : token ∈ tokensFrom sep [] text) : Word sep token ∧ token ⊆ word ++ x :: text := by
      obtain ⟨isWord,inside⟩ := ih [] (by simp) found
      exact ⟨isWord,fun y known => by simpa using .inr (.inr (inside known))⟩
    split at member
    · split at member
      · exact later member
      · rename_i some
        rcases mem_cons.mp member with rfl | found
        · exact ⟨⟨by simpa using some,clean⟩,fun y known => mem_append_left _ known⟩
        · exact later found
    · rename_i plain
      have more : ∀ y ∈ word ++ [x], sep y = false := by
        intro y known
        rcases mem_append.mp known with old | new
        · exact clean y old
        · rw [mem_singleton.mp new]
          simpa using plain
      obtain ⟨isWord,inside⟩ := ih (word ++ [x]) more member
      exact ⟨isWord,by simpa using inside⟩
theorem tokens_are_words {text token : List α} (member : token ∈ tokens sep text) : Word sep token ∧ token ⊆ text := by
  simpa using tokensFrom_word [] (by simp) member

/-- What words take up, with a separator after each. -/
def room (words : List (List α)) : Nat := (words.map fun word => word.length + 1).sum

theorem room_sublist {more : List (List α)} (sublist : words.Sublist more) : room words ≤ room more := by
  induction sublist with
  | slnil => exact Nat.le_refl _
  | cons word _ ih =>
    simp only [room,map_cons,sum_cons] at ih ⊢
    omega
  | cons_cons word _ ih =>
    simp only [room,map_cons,sum_cons] at ih ⊢
    omega

theorem room_tokensFrom (sep : α → Bool) (word text : List α) : room (tokensFrom sep word text) ≤ word.length + text.length + 1 := by
  induction text generalizing word with
  | nil =>
    rw [tokensFrom]
    split <;> simp [room]
  | cons x text ih =>
    rw [tokensFrom]
    have first := ih []
    have more := ih (word ++ [x])
    simp only [length_nil,length_append,length_cons] at first more ⊢
    split
    · split
      · omega
      · simp only [room,map_cons,sum_cons] at first ⊢
        omega
    · omega
theorem room_tokens (sep : α → Bool) (text : List α) : room (tokens sep text) ≤ text.length + 1 := by
  unfold tokens
  simpa using room_tokensFrom sep [] text

end Recovery.Tokens
