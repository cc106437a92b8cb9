import Mathlib.Data.List.Basic
import Mathlib.Tactic.Common
import Mathlib.Tactic.Ring

/-!
Machine words, byte strings and the results of functions that may fail. A word
is an integer kept in range by `wrap` or `unsigned`; a read or a write outside a
buffer has no result; a function returns, returns an error code, or never
returns.
-/
namespace Recovery.Memory
open List Option

abbrev Bytes := List UInt8
/-- The bytes of a text of plain characters. -/
def ascii (text : String) : Bytes := text.toList.map fun c => UInt8.ofNat c.toNat

/-! ## Words -/

/-- The signed word of the given width that an integer wraps to. -/
def wrap (bits : Nat) (x : Int) : Int := Int.bmod x (2 ^ bits)
/-- The unsigned word of the given width that an integer wraps to. -/
def unsigned (bits : Nat) (x : Int) : Nat := (x % 2 ^ bits).toNat

theorem wrap_lt (x : Int) : wrap 32 x < 2 ^ 31 := Int.bmod_lt (by decide)
theorem wrap_small {bits : Nat} {x : Int} (low : -(2 ^ bits) ≤ x) (high : x < 2 ^ bits) :
    wrap (bits + 1) x = x := by
  have double : ((2 ^ (bits + 1) : Nat) : Int) = 2 * 2 ^ bits := by push_cast; ring
  unfold wrap
  apply Int.bmod_eq_of_le <;> omega
theorem unsigned_small {bits x : Nat} (high : x < 2 ^ bits) : unsigned bits x = x := by
  have cast : ((x : Int) % 2 ^ bits) = x := Int.emod_eq_of_lt (by omega) (by exact_mod_cast high)
  simp [unsigned,cast]
theorem unsigned_le (bits x : Nat) : unsigned bits x ≤ x := by
  have cast : ((x : Int) % 2 ^ bits) = ((x % 2 ^ bits : Nat) : Int) := by push_cast; rfl
  rw [unsigned,cast,Int.toNat_natCast]
  exact Nat.mod_le _ _
theorem unsigned_lt (bits : Nat) (x : Int) : unsigned bits x < 2 ^ bits := by
  have positive : (0 : Int) < 2 ^ bits := by exact_mod_cast Nat.two_pow_pos bits
  have bound := Int.emod_lt_of_pos x positive
  have low := Int.emod_nonneg x (show (2 : Int) ^ bits ≠ 0 by omega)
  have : ((unsigned bits x : Nat) : Int) < ((2 ^ bits : Nat) : Int) := by
    rw [unsigned,Int.toNat_of_nonneg low]; push_cast; exact bound
  exact_mod_cast this

/-- The number whose bytes these are, lowest first. -/
def leVal : Bytes → Nat
  | [] => 0
  | b :: rest => b.toNat + 256 * leVal rest
/-- The lowest bytes of a number, lowest first. -/
def leBytes : Nat → Nat → Bytes
  | 0, _ => []
  | width + 1, n => UInt8.ofNat (n % 256) :: leBytes width (n / 256)

@[simp] theorem leBytes_length (width n : Nat) : (leBytes width n).length = width := by
  induction width generalizing n with
  | zero => rfl
  | succ width ih => simp [leBytes,ih]
theorem leVal_leBytes (width n : Nat) : leVal (leBytes width n) = n % 256 ^ width := by
  induction width generalizing n with
  | zero => simp [leBytes,leVal,Nat.mod_one]
  | succ width ih =>
    simp only [leBytes,leVal,ih,UInt8.toNat_ofNat',Nat.reducePow,Nat.mod_mod]
    rw [Nat.pow_succ,Nat.mul_comm (256 ^ width) 256,Nat.mod_mul]

/-! ## Buffers -/

/-- The `n` bytes at an offset, when all of them are inside. -/
def slice (b : Bytes) (off : Int) (n : Nat) : Option Bytes :=
  if 0 ≤ off ∧ off + n ≤ b.length then some ((b.drop off.toNat).take n) else none
/-- The buffer with some bytes replaced, when all of them are inside. -/
def setSlice (b : Bytes) (off : Int) (data : Bytes) : Option Bytes :=
  if 0 ≤ off ∧ off + data.length ≤ b.length then
    some (b.take off.toNat ++ data ++ b.drop (off.toNat + data.length))
  else none
/-- What is inside of the `n` bytes from an offset on. -/
def window (b : Bytes) (off : Int) (n : Nat) : Bytes := if off < 0 then [] else (b.drop off.toNat).take n

variable {off : Int}

theorem slice_some {b : Bytes} {n : Nat} {r : Bytes} (found : slice b off n = some r) :
    0 ≤ off ∧ off + n ≤ b.length ∧ r = (b.drop off.toNat).take n ∧ r.length = n := by
  unfold slice at found
  split at found
  · rename_i inside
    obtain rfl := some.inj found
    refine ⟨inside.1,inside.2,rfl,?_⟩
    simp only [length_take,length_drop]
    omega
  · cases found
theorem slice_nat {b : Bytes} {off n : Nat} (inside : off + n ≤ b.length) :
    slice b off n = some ((b.drop off).take n) := by
  have : (0 : Int) ≤ off ∧ (off : Int) + n ≤ b.length := by omega
  simp [slice,this]
theorem slice_mid (a mid c : Bytes) : slice (a ++ mid ++ c) a.length mid.length = some mid := by
  rw [slice_nat (by simp)]
  simp
theorem setSlice_length {b data r : Bytes} (done : setSlice b off data = some r) :
    r.length = b.length := by
  unfold setSlice at done
  split at done
  · rename_i inside
    obtain rfl := some.inj done
    simp only [length_append,length_take,length_drop]
    omega
  · cases done
theorem setSlice_getElem? {b data r : Bytes} {off : Nat} (done : setSlice b off data = some r) (i : Nat) :
    r[i]? = if off ≤ i ∧ i < off + data.length then data[i - off]? else b[i]? := by
  unfold setSlice at done
  split at done
  · rename_i inside
    obtain rfl := some.inj done
    rw [Int.toNat_natCast]
    have size : (b.take off).length = off := by rw [length_take]; omega
    split
    · rename_i between
      rw [append_assoc,getElem?_append_right (by omega),size,getElem?_append_left (by omega)]
    rename_i outside
    by_cases before : i < off
    · rw [append_assoc,getElem?_append_left (by omega),getElem?_take_of_lt before]
    · rw [getElem?_append_right (by rw [length_append]; omega),getElem?_drop]
      congr 1
      rw [length_append]
      omega
  · cases done
theorem slice_congr {a b : Bytes} {off n : Nat} (length : a.length = b.length)
    (same : ∀ i, off ≤ i → i < off + n → a[i]? = b[i]?) : slice a off n = slice b off n := by
  unfold slice
  rw [length]
  split
  · congr 1
    apply ext_getElem?
    intro i
    rw [getElem?_take,getElem?_take]
    split
    · rw [getElem?_drop,getElem?_drop]
      exact same _ (by simp) (by simp; omega)
    · rfl
  · rfl
theorem slice_setSlice {b data r : Bytes} (done : setSlice b off data = some r) :
    slice r off data.length = some data := by
  unfold setSlice at done
  split at done
  · rename_i inside
    obtain rfl := some.inj done
    have size : (b.take off.toNat).length = off.toNat := by rw [length_take]; omega
    have mid := slice_mid (b.take off.toNat) data (b.drop (off.toNat + data.length))
    rw [size,Int.toNat_of_nonneg inside.1] at mid
    exact mid
  · cases done
theorem window_nat (b : Bytes) (off n : Nat) : window b off n = (b.drop off).take n := by
  have : ¬ (off : Int) < 0 := by omega
  simp [window,this]

/-! ## Results -/

/-- How a call ends: it returns, it returns an error code, or it never returns
    (it loops, or what it does is undefined). -/
inductive Ret (α : Type) where
  | ok (a : α)
  | err (code : Int)
  | stuck
  deriving DecidableEq, Repr

namespace Ret
variable {α β : Type}

instance : Monad Ret where
  pure := .ok
  bind r k := match r with
    | .ok a => k a
    | .err code => .err code
    | .stuck => .stuck

/-- A value that must be there. -/
def need : Option α → Ret α
  | some a => .ok a
  | none => .stuck

@[simp] theorem pure_eq (a : α) : (pure a : Ret α) = .ok a := rfl
@[simp] theorem ok_bind (a : α) (k : α → Ret β) : Ret.ok a >>= k = k a := rfl
@[simp] theorem err_bind (code : Int) (k : α → Ret β) : Ret.err code >>= k = .err code := rfl
@[simp] theorem stuck_bind (k : α → Ret β) : (Ret.stuck : Ret α) >>= k = .stuck := rfl
@[simp] theorem need_some (a : α) : need (some a) = .ok a := rfl

end Ret

end Recovery.Memory
