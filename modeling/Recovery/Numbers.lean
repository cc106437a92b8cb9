import Recovery.Memory

/-!
The numbers of the patch formats: the little-endian words of `utils.c` and the
sign-and-magnitude offsets of `bsdiff.c` and `bspatch.c`.
-/
namespace Recovery.Numbers
open Memory

def byteAt (p : Bytes) (i : Nat) : Nat := (p.getD i 0).toNat

/-- `Write4`: the low four bytes of an int. -/
def write4 (value : Int) : Bytes := leBytes 4 (unsigned 32 value)
/-- `Write8`: the eight bytes of a long long. -/
def write8 (value : Int) : Bytes := leBytes 8 (unsigned 64 value)

def read4 (p : Bytes) : Int :=
  wrap 32 (((byteAt p 3) <<< 24 ||| (byteAt p 2) <<< 16 ||| (byteAt p 1) <<< 8 ||| byteAt p 0 : Nat) : Int)
def read8 (p : Bytes) : Int :=
  wrap 64 (((byteAt p 7) <<< 56 ||| (byteAt p 6) <<< 48 ||| (byteAt p 5) <<< 40 ||| (byteAt p 4) <<< 32 |||
    (byteAt p 3) <<< 24 ||| (byteAt p 2) <<< 16 ||| (byteAt p 1) <<< 8 ||| byteAt p 0 : Nat) : Int)

/-- `offtin`: seven bytes and seven bits of magnitude, then the sign bit. -/
def offtin (buf : Bytes) : Int :=
  let y : Int := (byteAt buf 7 &&& 0x7F : Nat)
  let y := y * 256 + byteAt buf 6
  let y := y * 256 + byteAt buf 5
  let y := y * 256 + byteAt buf 4
  let y := y * 256 + byteAt buf 3
  let y := y * 256 + byteAt buf 2
  let y := y * 256 + byteAt buf 1
  let y := y * 256 + byteAt buf 0
  if byteAt buf 7 &&& 0x80 ≠ 0 then -y else y

/-- `offtout`: the bytes of the magnitude, the sign in the top bit. -/
def offtout (x : Int) : Bytes :=
  let y := if x < 0 then (-x).toNat else x.toNat
  let buf := leBytes 8 y
  if x < 0 then buf.take 7 ++ [buf.getD 7 0 ||| 0x80] else buf

@[simp] theorem offtout_length (x : Int) : (offtout x).length = 8 := by
  unfold offtout
  split <;> simp

/-! ## `offtin` undoes `offtout` -/

theorem low_bits : ∀ n < 128, n &&& 0x80 = 0 ∧ n &&& 0x7F = n ∧ (n ||| 0x80) &&& 0x7F = n ∧ (n ||| 0x80) &&& 0x80 ≠ 0 := by
  decide
theorem offtin_bytes {buf : Bytes} {y : Nat} (small : y < 2 ^ 63) (bytes : ∀ i < 7, byteAt buf i = y / 256 ^ i % 256) :
    (byteAt buf 7 = y / 256 ^ 7 → offtin buf = y) ∧ (byteAt buf 7 = y / 256 ^ 7 ||| 0x80 → offtin buf = -(y : Int)) := by
  obtain ⟨off,keep,keep',on⟩ := low_bits (y / 256 ^ 7) (by omega)
  have step (i : Nat) : ((y / 256 ^ (i + 1) : Nat) : Int) * 256 + (y / 256 ^ i % 256 : Nat) = (y / 256 ^ i : Nat) := by
    rw [Nat.pow_succ,← Nat.div_div_eq_div_mul]
    omega
  have sum : ((((((((y / 256 ^ 7 : Nat) : Int) * 256 + byteAt buf 6) * 256 + byteAt buf 5) * 256 + byteAt buf 4) * 256 +
      byteAt buf 3) * 256 + byteAt buf 2) * 256 + byteAt buf 1) * 256 + byteAt buf 0 = y := by
    rw [bytes 6 (by omega),bytes 5 (by omega),bytes 4 (by omega),bytes 3 (by omega),bytes 2 (by omega),
      bytes 1 (by omega),bytes 0 (by omega),step 6,step 5,step 4,step 3,step 2,step 1,step 0]
    simp
  constructor <;> intro top <;> unfold offtin <;> dsimp only
  · rw [top,off,keep,if_neg (by simp),sum]
  · rw [top,keep',if_pos on,sum]
theorem byteAt_leBytes {width y i : Nat} (inside : i < width) : byteAt (leBytes width y) i = y / 256 ^ i % 256 := by
  induction width generalizing y i with
  | zero => omega
  | succ width ih =>
    cases i with
    | zero => simp [byteAt,leBytes]
    | succ i =>
      have rest := ih (y := y / 256) (i := i) (by omega)
      rw [Nat.div_div_eq_div_mul,← Nat.pow_succ'] at rest
      exact rest
theorem offtin_offtout {x : Int} (low : -(2 ^ 63) < x) (high : x < 2 ^ 63) : offtin (offtout x) = x := by
  by_cases negative : x < 0
  · have small : (-x).toNat < 2 ^ 63 := by omega
    have bytes (i : Nat) (inside : i < 7) : byteAt (offtout x) i = (-x).toNat / 256 ^ i % 256 := by
      rw [← byteAt_leBytes (show i < 8 by omega)]
      simp [offtout,negative,byteAt,inside,show i < 8 by omega]
    have top : byteAt (offtout x) 7 = (-x).toNat / 256 ^ 7 ||| 0x80 := by
      have value := byteAt_leBytes (y := (-x).toNat) (show 7 < 8 by omega)
      rw [Nat.mod_eq_of_lt (by omega)] at value
      rw [← value]
      simp [offtout,negative,byteAt]
    rw [(offtin_bytes small bytes).2 top]
    omega
  · have small : x.toNat < 2 ^ 63 := by omega
    have same : offtout x = leBytes 8 x.toNat := by simp [offtout,negative]
    have top := byteAt_leBytes (y := x.toNat) (show 7 < 8 by omega)
    rw [Nat.mod_eq_of_lt (by omega)] at top
    rw [same,(offtin_bytes small fun i inside => byteAt_leBytes (by omega)).1 top]
    omega

end Recovery.Numbers
