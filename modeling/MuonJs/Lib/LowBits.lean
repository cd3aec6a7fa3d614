import Mathlib

/-!
# The low bits of a machine word

A tag in the low bits of a 64-bit word is read, cleared and set with a mask; in terms of
numbers these are a remainder, a multiple of a power of two and a sum.  A shift to the left
makes room for it, and an arithmetic shift to the right takes it away.
-/

namespace MuonJs
namespace LowBits

variable {word mask low : UInt64} {bits : ℕ}

/-- A word masked to its low bits. -/
theorem toNat_and_mask (isMask : mask.toNat = 2 ^ bits - 1) :
    (word &&& mask).toNat = word.toNat % 2 ^ bits := by
  rw [UInt64.toNat_and, isMask, Nat.and_two_pow_sub_one_eq_mod]

/-- A word is made of the bits inside a mask and those outside. -/
theorem toNat_and_not_add (word mask : UInt64) :
    (word &&& ~~~mask).toNat + (word &&& mask).toNat = word.toNat := by
  have apart : (word.toBitVec &&& ~~~mask.toBitVec) &&& (word.toBitVec &&& mask.toBitVec) = 0#64 := by
    ext position inRange
    simp only [BitVec.getElem_and, BitVec.getElem_not, BitVec.getElem_zero]
    cases word.toBitVec[position] <;> cases mask.toBitVec[position] <;> rfl
  have whole : (word.toBitVec &&& ~~~mask.toBitVec) ||| (word.toBitVec &&& mask.toBitVec) =
      word.toBitVec := by
    ext position inRange
    simp only [BitVec.getElem_and, BitVec.getElem_not, BitVec.getElem_or]
    cases word.toBitVec[position] <;> cases mask.toBitVec[position] <;> rfl
  have isSum := BitVec.toNat_add_of_and_eq_zero apart
  rw [BitVec.add_eq_or_of_and_eq_zero _ _ apart, whole] at isSum
  exact isSum.symm

/-- A word with its low bits cleared. -/
theorem toNat_and_not_mask (isMask : mask.toNat = 2 ^ bits - 1) :
    (word &&& ~~~mask).toNat = word.toNat - word.toNat % 2 ^ bits := by
  have isSum := toNat_and_not_add word mask
  rw [toNat_and_mask isMask] at isSum
  exact Nat.eq_sub_of_add_eq isSum

/-- Low bits set in a word that has none. -/
theorem toNat_or_low (isClear : word.toNat % 2 ^ bits = 0) (isLow : low.toNat < 2 ^ bits) :
    (word ||| low).toNat = word.toNat + low.toNat := by
  have isMultiple := Nat.mul_div_cancel' (Nat.dvd_of_mod_eq_zero isClear)
  rw [UInt64.toNat_or, ← isMultiple, Nat.two_pow_add_eq_or_of_lt isLow]

/-- The low bits of a union are the union of the low bits. -/
theorem or_mod_two_pow (left right bits : ℕ) :
    (left ||| right) % 2 ^ bits = left % 2 ^ bits ||| right % 2 ^ bits := by
  rw [← Nat.and_two_pow_sub_one_eq_mod, ← Nat.and_two_pow_sub_one_eq_mod,
    ← Nat.and_two_pow_sub_one_eq_mod, Nat.and_or_distrib_right]

/-- A word shifted left has as many low bits clear. -/
theorem toNat_shiftLeft_mod (word shift : UInt64) (low : bits ≤ shift.toNat)
    (small : shift.toNat < 64) : (word <<< shift).toNat % 2 ^ bits = 0 := by
  have isShift : shift.toNat % 64 = shift.toNat := Nat.mod_eq_of_lt small
  have inWord : 2 ^ bits ∣ 2 ^ 64 := Nat.pow_dvd_pow 2 (by omega)
  have inShift : 2 ^ bits ∣ word.toNat * 2 ^ shift.toNat :=
    Dvd.dvd.mul_left (Nat.pow_dvd_pow 2 low) _
  rw [UInt64.toNat_shiftLeft, isShift, Nat.shiftLeft_eq, Nat.mod_mod_of_dvd _ inWord]
  exact Nat.mod_eq_zero_of_dvd inShift

/-- A word as a signed integer. -/
theorem toInt_toInt64 (word : UInt64) :
    word.toInt64.toInt =
      if 2 * word.toNat < 2 ^ 64 then (word.toNat : ℤ) else word.toNat - 2 ^ 64 :=
  BitVec.toInt_eq_toNat_cond word.toBitVec

/-- A signed integer as a word. -/
theorem toNat_toUInt64 (number : Int64) : (number.toUInt64.toNat : ℤ) = number.toInt % 2 ^ 64 := by
  have isNumber := toInt_toInt64 number.toUInt64
  have bound := number.toUInt64.toNat_lt
  rw [Int64.toInt64_toUInt64] at isNumber
  rw [isNumber]
  split <;> omega

/-- A word shifted left by one doubles the integer that it stands for, if that fits. -/
theorem toInt_shiftLeft_one {number : Int64} (low : -2 ^ 62 ≤ number.toInt)
    (high : number.toInt < 2 ^ 62) : (number.toUInt64 <<< 1).toInt64.toInt = 2 * number.toInt := by
  have isWord := toNat_toUInt64 number
  have isOne : (1 : UInt64).toNat % 64 = 1 := by decide
  rw [toInt_toInt64, UInt64.toNat_shiftLeft, isOne, Nat.shiftLeft_eq]
  split <;> omega

/-- An arithmetic shift to the right by one halves the integer. -/
theorem toInt_shiftRight_one (number : Int64) : (number >>> 1).toInt = number.toInt / 2 := by
  have isShift : (number >>> 1).toInt =
      (number.toBitVec.sshiftRight' (BitVec.smod 1 64)).toInt := rfl
  have isOne : (BitVec.smod 1 64 : BitVec 64) = 1#64 := by decide
  rw [isShift, isOne, BitVec.sshiftRight_eq', BitVec.toInt_sshiftRight, Int.shiftRight_eq_div_pow]
  rfl

end LowBits
end MuonJs
