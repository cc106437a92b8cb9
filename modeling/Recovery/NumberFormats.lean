import Recovery.Numbers

/-!
The numbers of the patch formats, written and read back.
-/
namespace Recovery.NumberFormats
open Memory Numbers

/-! ## Words -/

theorem byte_or (n i : Nat) {k : Nat} (place : k = 8 * i) :
    (n / 256 ^ i % 256) <<< k ||| n % 256 ^ i = n % 256 ^ (i + 1) := by
  have power : 2 ^ k = 256 ^ i := by rw [place,Nat.pow_mul]
  have small : n % 256 ^ i < 2 ^ k := power ▸ Nat.mod_lt n (Nat.pow_pos (by omega))
  rw [← Nat.shiftLeft_add_eq_or_of_lt small,Nat.shiftLeft_eq,power,pow_succ,Nat.mod_mul,mul_comm,add_comm]

theorem wrap_unsigned {bits : Nat} {value : Int} (low : -(2 ^ bits) ≤ value) (high : value < 2 ^ bits) :
    wrap (bits + 1) (unsigned (bits + 1) value : Nat) = value := by
  have positive : (0 : Int) < 2 ^ (bits + 1) := by exact_mod_cast Nat.two_pow_pos _
  have cast : ((2 : Int) ^ (bits + 1)) = ((2 ^ (bits + 1) : Nat) : Int) := by push_cast; rfl
  rw [unsigned,Int.toNat_of_nonneg (Int.emod_nonneg _ (by omega)),wrap,cast,Int.emod_bmod]
  exact wrap_small low high

theorem read4_write4 {value : Int} (low : -(2 ^ 31) ≤ value) (high : value < 2 ^ 31) : read4 (write4 value) = value := by
  rw [read4,write4]
  simp only [byteAt_leBytes,Nat.reduceLT,Nat.or_assoc]
  rw [show ∀ n : Nat, n / 256 ^ 0 % 256 = n % 256 ^ 1 by simp,byte_or _ 1 rfl,byte_or _ 2 rfl,byte_or _ 3 rfl,
    Nat.mod_eq_of_lt (show _ < 256 ^ (3 + 1) from unsigned_lt 32 value)]
  exact wrap_unsigned low high
theorem read8_write8 {value : Int} (low : -(2 ^ 63) ≤ value) (high : value < 2 ^ 63) : read8 (write8 value) = value := by
  rw [read8,write8]
  simp only [byteAt_leBytes,Nat.reduceLT,Nat.or_assoc]
  rw [show ∀ n : Nat, n / 256 ^ 0 % 256 = n % 256 ^ 1 by simp,byte_or _ 1 rfl,byte_or _ 2 rfl,byte_or _ 3 rfl,
    byte_or _ 4 rfl,byte_or _ 5 rfl,byte_or _ 6 rfl,byte_or _ 7 rfl,
    Nat.mod_eq_of_lt (show _ < 256 ^ (7 + 1) from unsigned_lt 64 value)]
  exact wrap_unsigned low high

/-! ## Offsets -/

def negativeZero : Bytes := [0, 0, 0, 0, 0, 0, 0, 0x80]

theorem leBytes_step (width n : Nat) (b : UInt8) : leBytes (width + 1) (n * 256 + b.toNat) = b :: leBytes width n := by
  have small := b.toNat_lt
  rw [leBytes,show (n * 256 + b.toNat) % 256 = b.toNat by omega,show (n * 256 + b.toNat) / 256 = n by omega,
    UInt8.ofNat_toNat]

def magnitude (b0 b1 b2 b3 b4 b5 b6 top : UInt8) : Nat :=
  (((((((top.toNat &&& 0x7F) * 256 + b6.toNat) * 256 + b5.toNat) * 256 + b4.toNat) * 256 + b3.toNat) * 256 +
    b2.toNat) * 256 + b1.toNat) * 256 + b0.toNat

theorem top_byte : ∀ n < 256, (n &&& 0x80 = 0 → n &&& 0x7F = n) ∧
    (n &&& 0x80 ≠ 0 → UInt8.ofNat (n &&& 0x7F) ||| 0x80 = UInt8.ofNat n ∧ (n &&& 0x7F = 0 → n = 128)) := by
  decide +kernel

theorem offtout_offtin {buf : Bytes} (length : buf.length = 8) (other : buf ≠ negativeZero) :
    offtout (offtin buf) = buf := by
  obtain ⟨b0,b1,b2,b3,b4,b5,b6,top,rfl⟩ :
      ∃ b0 b1 b2 b3 b4 b5 b6 top, buf = [b0,b1,b2,b3,b4,b5,b6,top] := by
    match buf, length with
    | [b0,b1,b2,b3,b4,b5,b6,top], _ => exact ⟨b0,b1,b2,b3,b4,b5,b6,top,rfl⟩
  have value : offtin [b0,b1,b2,b3,b4,b5,b6,top] = if top.toNat &&& 0x80 ≠ 0
      then -(magnitude b0 b1 b2 b3 b4 b5 b6 top : Int) else magnitude b0 b1 b2 b3 b4 b5 b6 top := by
    simp [offtin,byteAt,magnitude]
  have bytes : leBytes 8 (magnitude b0 b1 b2 b3 b4 b5 b6 top) =
      [b0,b1,b2,b3,b4,b5,b6,UInt8.ofNat (top.toNat &&& 0x7F)] := by
    have small : (top.toNat &&& 0x7F) % 256 = top.toNat &&& 0x7F :=
      Nat.mod_eq_of_lt (lt_of_le_of_lt Nat.and_le_right (by omega))
    rw [magnitude]
    simp only [leBytes_step]
    simp [leBytes,small]
  obtain ⟨plain,marked⟩ := top_byte top.toNat top.toNat_lt
  rw [value]
  by_cases sign : top.toNat &&& 0x80 = 0
  · rw [if_neg (by simpa using sign),offtout,if_neg (by omega),if_neg (by omega),Int.toNat_natCast,bytes,
      plain sign,UInt8.ofNat_toNat]
  · obtain ⟨same,zero⟩ := marked sign
    have some : 0 < magnitude b0 b1 b2 b3 b4 b5 b6 top := by
      by_contra none
      refine other ?_
      unfold magnitude at none
      have top := zero (by omega)
      simp only [negativeZero,List.cons.injEq,← UInt8.toNat_inj]
      simp
      omega
    rw [if_pos sign,offtout,if_pos (by omega),if_pos (by omega),Int.neg_neg,Int.toNat_natCast,bytes]
    change [b0,b1,b2,b3,b4,b5,b6,UInt8.ofNat (top.toNat &&& 0x7F) ||| 0x80] = _
    rw [same,UInt8.ofNat_toNat]

/-- Both formats read back what they write, and the offsets write back what they read. -/
theorem formats_round_trip :
    (∀ x : Int, |x| < 2 ^ 63 → offtin (offtout x) = x) ∧
    (∀ buf : Bytes, buf.length = 8 → buf ≠ negativeZero → offtout (offtin buf) = buf) ∧
    (∀ value : Int, -(2 ^ 63) ≤ value → value < 2 ^ 63 → read8 (write8 value) = value) ∧
    (∀ value : Int, -(2 ^ 31) ≤ value → value < 2 ^ 31 → read4 (write4 value) = value) :=
  ⟨fun _ small => offtin_offtout (abs_lt.mp small).1 (abs_lt.mp small).2, fun _ length other => offtout_offtin length other,
    fun _ low high => read8_write8 low high, fun _ low high => read4_write4 low high⟩

end Recovery.NumberFormats
