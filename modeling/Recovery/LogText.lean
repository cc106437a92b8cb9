import Mathlib.Tactic.Common

/-!
The log on the screen (screen_ui.cpp): where `Print` writes in the array `text`.
-/
namespace Recovery.LogText
open List

def kMaxCols : Nat := 96
def kMaxRows : Nat := 96

/-- The sizes of the frame buffer and of a character of the log. -/
structure Display where
  fb_width : Nat
  fb_height : Nat
  log_char_width : Nat
  log_char_height : Nat

def Display.log_text_rows (d : Display) : Nat := d.fb_height / d.log_char_height
def Display.log_text_cols (d : Display) : Nat := d.fb_width / d.log_char_width

/-- Where the next character goes, and the rows and columns of `text` that were written so far. -/
structure Log where
  text_col : Nat
  text_row : Nat
  text_top : Nat
  writes : List (Nat × Nat)

inductive Call
  | print (message : List Char)
  | clear

section
variable (d : Display) (l : Log)

/-- `text[text_row][text_col] = ...` -/
def Log.write : Log := { l with writes := l.writes ++ [(l.text_row, l.text_col)] }
def Log.newline : Log :=
  let row := (l.text_row + 1) % d.log_text_rows
  { l.write with
    text_col := 0
    text_row := row
    text_top := if row = l.text_top then (l.text_top + 1) % d.log_text_rows else l.text_top }
def Log.put (c : Char) : Log :=
  let l := if c = '\n' ∨ d.log_text_cols ≤ l.text_col then l.newline d else l
  if c = '\n' then l else { l.write with text_col := l.text_col + 1 }

/-- `log_text_rows > 0 && log_text_cols > 0` -/
def Shown : Prop := 0 < d.log_text_rows ∧ 0 < d.log_text_cols

instance : Decidable (Shown d) := inferInstanceAs (Decidable (_ ∧ _))

/-- What `Print` does with the message, of which the buffer holds 255 characters. -/
def Log.print (message : List Char) : Log :=
  if Shown d then ((message.take 255).foldl (Log.put d) l).write else l

def Log.call : Call → Log
  | .print message => l.print d message
  | .clear => { l with text_col := 0, text_row := 0 }

end

/-- The log after `Init` and some calls. -/
def logged (d : Display) (calls : List Call) : Log := calls.foldl (Log.call d) ⟨0, 0, 1, []⟩

variable {d : Display} {l : Log}

/-! ## Where it writes -/

structure Good (d : Display) (l : Log) : Prop where
  row : l.text_row < d.log_text_rows
  col : l.text_col ≤ d.log_text_cols
  writes : ∀ w ∈ l.writes, w.1 < d.log_text_rows ∧ w.2 ≤ d.log_text_cols

theorem good_write (good : Good d l) : Good d l.write where
  row := good.row
  col := good.col
  writes w member := by
    rcases mem_append.mp member with old | new
    · exact good.writes w old
    · rw [mem_singleton.mp new]
      exact ⟨good.row,good.col⟩
theorem good_newline (good : Good d l) : Good d (l.newline d) :=
  ⟨Nat.mod_lt _ (by have := good.row; omega),Nat.zero_le _,(good_write good).writes⟩

private theorem good_put (some : 0 < d.log_text_cols) (good : Good d l) (c : Char) : Good d (l.put d c) := by
  have room (l : Log) (good : Good d l) (less : l.text_col < d.log_text_cols) :
      Good d { l.write with text_col := l.text_col + 1 } := ⟨good.row,less,(good_write good).writes⟩
  unfold Log.put
  by_cases wraps : c = '\n' ∨ d.log_text_cols ≤ l.text_col
  · simp only [if_pos wraps]
    split
    · exact good_newline good
    · exact room _ (good_newline good) some
  · simp only [if_neg wraps]
    split
    · exact good
    · exact room l good (by omega)

private theorem good_puts (some : 0 < d.log_text_cols) (message : List Char) (good : Good d l) :
    Good d (message.foldl (Log.put d) l) := by
  induction message generalizing l with
  | nil => exact good
  | cons c message ih => exact ih (good_put some good c)

private theorem good_logged (some : Shown d) (calls : List Call) (good : Good d l) : Good d (calls.foldl (Log.call d) l) := by
  induction calls generalizing l with
  | nil => exact good
  | cons call calls ih =>
    refine ih ?_
    cases call with
    | print message =>
      rw [Log.call,Log.print,if_pos some]
      exact good_write (good_puts some.2 _ good)
    | clear => exact ⟨some.1,Nat.zero_le _,good.writes⟩
private theorem not_logged (none : ¬ Shown d) (calls : List Call) : (calls.foldl (Log.call d) l).writes = l.writes := by
  induction calls generalizing l with
  | nil => rfl
  | cons call calls ih =>
    rw [foldl_cons,ih]
    cases call with
    | print message => rw [Log.call,Log.print,if_neg none]
    | clear => rfl

/-! ## How far it gets -/

private theorem newlines_row {n : Nat} (empty : l.text_col = 0) (inside : l.text_row + n < d.log_text_rows) :
    ((List.replicate n '\n').foldl (Log.put d) l).text_row = l.text_row + n := by
  induction n generalizing l with
  | zero => rfl
  | succ n ih =>
    have next : (l.put d '\n').text_row = l.text_row + 1 := by
      simp [Log.put,Log.newline,Nat.mod_eq_of_lt (show l.text_row + 1 < d.log_text_rows by omega)]
    rw [replicate_succ,foldl_cons,ih (by simp [Log.put,Log.newline]) (by omega),next]
    omega

private theorem letters_col {n : Nat} (inside : l.text_col + n ≤ d.log_text_cols) :
    ((List.replicate n 'a').foldl (Log.put d) l).text_col = l.text_col + n := by
  induction n generalizing l with
  | zero => rfl
  | succ n ih =>
    have next : (l.put d 'a').text_col = l.text_col + 1 := by
      simp [Log.put,Nat.not_le.mpr (show l.text_col < d.log_text_cols by omega)]
    rw [replicate_succ,foldl_cons,ih (by omega),next]
    omega

/-- All writes of every sequence of calls are inside the array. -/
def Inside (d : Display) : Prop := ∀ calls, ∀ w ∈ (logged d calls).writes, w.1 < kMaxRows ∧ w.2 < kMaxCols

/-- `Init` bounds the numbers of rows and columns of the menu, not those of the log. -/
theorem print_inside_iff (d : Display) :
    Inside d ↔ (Shown d → d.log_text_rows ≤ kMaxRows ∧ d.log_text_cols < kMaxCols) := by
  constructor
  · intro inside some
    have last (message : List Char) (short : message.length ≤ 255) :=
      let l := message.foldl (Log.put d) ⟨0, 0, 1, []⟩
      inside [.print message] (l.text_row, l.text_col)
        (by simp [l, logged, Log.call, Log.print, some, take_of_length_le short, Log.write])
    by_contra large
    by_cases tall : kMaxRows < d.log_text_rows
    · have row := (last (List.replicate kMaxRows '\n') (by decide)).1
      rw [newlines_row rfl (by simpa using tall)] at row
      omega
    · have col := (last (List.replicate kMaxCols 'a') (by decide)).2
      rw [letters_col (by simp; omega)] at col
      omega
  · intro fits calls w member
    by_cases some : Shown d
    · obtain ⟨row, col⟩ := (good_logged some calls ⟨some.1, Nat.zero_le _, by simp⟩).writes w member
      have := fits some
      omega
    · rw [logged, not_logged some] at member
      cases member

/-- A display of 1080 by 1920 with characters of 10 by 18: a message can reach the row 96. -/
theorem fullHd_not_inside : ¬ Inside ⟨1080, 1920, 10, 18⟩ := by
  rw [print_inside_iff]
  decide

end Recovery.LogText
