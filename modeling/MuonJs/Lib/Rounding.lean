import Mathlib

/-!
# Rounding to binary64

A positive number is rounded to 53 significant bits, fewer below the range of
normal numbers, ties to the even significand; from `2 ^ 1024 - 2 ^ 970` on it is
rounded to infinity.  The result is the exponent and the significand packed into the
bits of the magnitude.
-/

namespace MuonJs
namespace Binary64

/-- The magnitude bits of infinity. -/
def infinityBits : ℕ := 2047 * 2 ^ 52

/-- The nearest integer, ties to even. -/
def halfEven (number : ℚ) : ℕ :=
  let whole := ⌊number⌋₊
  if number - whole < 1 / 2 then whole
  else if 1 / 2 < number - whole then whole + 1
  else whole + whole % 2

/-- The exponent of the last bit that a double nearest to the number has. -/
def scale (number : ℚ) : ℤ := max (-1074) (Int.log 2 number - 52)

/-- The magnitude bits of the double nearest to a number that is not negative. -/
def nearest (number : ℚ) : ℕ :=
  if number = 0 then 0
  else min infinityBits
    ((scale number + 1074).toNat * 2 ^ 52 + halfEven (number / 2 ^ scale number))

/-- The least number that is rounded to infinity. -/
def overflow : ℚ := 2 ^ 1024 - 2 ^ 970

/-! ## The nearest integer -/

theorem floor_le_halfEven (number : ℚ) : ⌊number⌋₊ ≤ halfEven number := by
  unfold halfEven
  dsimp only
  split
  · exact le_refl _
  · split <;> omega

theorem halfEven_le_floor (number : ℚ) : halfEven number ≤ ⌊number⌋₊ + 1 := by
  unfold halfEven
  dsimp only
  split
  · omega
  · split <;> omega

/-- A quotient of integers is rounded as its remainder says. -/
theorem halfEven_div {num den : ℕ} (positive : 0 < den) :
    halfEven ((num : ℚ) / den) =
      if 2 * (num % den) < den then num / den
      else if den < 2 * (num % den) then num / den + 1
      else num / den + num / den % 2 := by
  have isPositive : (0 : ℚ) < den := Nat.cast_pos.mpr positive
  have isFloor : ⌊(num : ℚ) / den⌋₊ = num / den := Nat.floor_div_eq_div _ _
  have rest : (num : ℚ) / den - (num / den : ℕ) = (num % den : ℕ) / den := by
    have whole : (num : ℚ) = (num % den : ℕ) + den * (num / den : ℕ) := by
      exact_mod_cast (Nat.mod_add_div num den).symm
    rw [eq_div_iff isPositive.ne', sub_mul, div_mul_cancel₀ _ isPositive.ne']
    linarith
  have below : ((num % den : ℕ) : ℚ) / den < 1 / 2 ↔ 2 * (num % den) < den := by
    rw [div_lt_div_iff₀ isPositive two_pos, one_mul, mul_comm]
    exact_mod_cast Iff.rfl
  have above : (1 / 2 : ℚ) < ((num % den : ℕ) : ℚ) / den ↔ den < 2 * (num % den) := by
    rw [div_lt_div_iff₀ two_pos isPositive, one_mul, mul_comm]
    exact_mod_cast Iff.rfl
  rw [halfEven, isFloor, rest]
  simp only [below, above]

/-- Less than half above an integer, a number is not rounded up from it. -/
theorem halfEven_le {number : ℚ} {bound : ℕ} (nonneg : 0 ≤ number)
    (below : number < bound + 1 / 2) : halfEven number ≤ bound := by
  have isFloor : ⌊number⌋₊ ≤ bound :=
    Nat.lt_succ_iff.mp ((Nat.floor_lt nonneg).mpr (by push_cast; linarith))
  obtain isLess | isEqual := isFloor.lt_or_eq
  · exact (halfEven_le_floor number).trans isLess
  · rw [halfEven, isEqual, if_pos (by linarith)]

/-- From half above an odd integer on, a number is rounded up from it. -/
theorem lt_halfEven {number : ℚ} {bound : ℕ} (isOdd : bound % 2 = 1)
    (above : bound + 1 / 2 ≤ number) : bound < halfEven number := by
  have isFloor : bound ≤ ⌊number⌋₊ := Nat.le_floor (by linarith)
  obtain isLess | isEqual := isFloor.lt_or_eq
  · exact isLess.trans_le (floor_le_halfEven number)
  · rw [halfEven, ← isEqual, if_neg (by linarith)]
    split <;> omega

/-! ## Small and large numbers -/

/-- A number is less than 53 bits long at its scale. -/
theorem div_scale_lt (number : ℚ) :
    number / 2 ^ scale number < 2 ^ 53 := by
  have bound : number < 2 ^ (Int.log 2 number + 1) := by
    exact_mod_cast Int.lt_zpow_succ_log_self one_lt_two number
  rw [div_lt_iff₀ (by positivity), ← zpow_natCast, ← zpow_add₀ two_ne_zero]
  refine bound.trans_le (zpow_le_zpow_right₀ one_le_two ?_)
  unfold scale
  push_cast
  omega

/-- A number below half of the least positive double is rounded to zero. -/
theorem nearest_eq_zero {number : ℚ} (nonneg : 0 ≤ number) (small : number < 2 ^ (-1075 : ℤ)) :
    nearest number = 0 := by
  unfold nearest
  split
  case isTrue => rfl
  case isFalse nonzero =>
    have positive : 0 < number := lt_of_le_of_ne nonneg (Ne.symm nonzero)
    have isLog : Int.log 2 number < -1075 :=
      (Int.lt_zpow_iff_log_lt one_lt_two positive).mp (by exact_mod_cast small)
    have isScale : scale number = -1074 := max_eq_left (by omega)
    have isHalf : number / 2 ^ (-1074 : ℤ) < 1 / 2 := by
      rw [div_lt_iff₀ (by positivity)]
      refine small.trans_eq ?_
      rw [show (-1075 : ℤ) = -1 + -1074 by norm_num, zpow_add₀ two_ne_zero]
      norm_num
    have isFloor : ⌊number / 2 ^ (-1074 : ℤ)⌋₊ = 0 :=
      Nat.floor_eq_zero.mpr (isHalf.trans (by norm_num))
    rw [isScale, halfEven, isFloor, Nat.cast_zero, sub_zero, if_pos isHalf]
    norm_num

/-- The bound lies half of the last place above the largest double. -/
theorem overflow_eq : overflow = (2 ^ 53 - 1 / 2) * 2 ^ (971 : ℤ) := by
  have first : (2 : ℚ) ^ 1024 = 2 ^ 53 * 2 ^ 971 := pow_add 2 53 971
  have second : (2 : ℚ) ^ 971 = 2 ^ 970 * 2 := pow_succ 2 970
  rw [overflow, first, show (971 : ℤ) = (971 : ℕ) from rfl, zpow_natCast, second]
  generalize (2 : ℚ) ^ 970 = last
  ring

theorem two_pow_le_overflow : 2 ^ (1023 : ℤ) ≤ overflow := by
  have split : (2 : ℚ) ^ (1023 : ℤ) = 2 ^ (52 : ℤ) * 2 ^ (971 : ℤ) :=
    zpow_add₀ two_ne_zero 52 971
  rw [overflow_eq, split]
  refine mul_le_mul_of_nonneg_right ?_ (by positivity)
  norm_num

theorem overflow_lt_two_pow : overflow < 2 ^ (1024 : ℤ) := by
  have split : (2 : ℚ) ^ (1024 : ℤ) = 2 ^ (53 : ℤ) * 2 ^ (971 : ℤ) :=
    zpow_add₀ two_ne_zero 53 971
  rw [overflow_eq, split]
  refine mul_lt_mul_of_pos_right ?_ (by positivity)
  norm_num

/-- A number below the bound is rounded to a number that is finite. -/
theorem nearest_lt {number : ℚ} (nonneg : 0 ≤ number) (small : number < overflow) :
    nearest number < infinityBits := by
  unfold nearest
  split
  case isTrue => exact Nat.mul_pos (by norm_num) (Nat.two_pow_pos 52)
  case isFalse nonzero =>
    have positive : 0 < number := lt_of_le_of_ne nonneg (Ne.symm nonzero)
    have isLog : Int.log 2 number < 1024 := by
      refine (Int.lt_zpow_iff_log_lt one_lt_two positive).mp ?_
      rw [Nat.cast_ofNat]
      exact small.trans overflow_lt_two_pow
    have isShort : halfEven (number / 2 ^ scale number) ≤ 2 ^ 53 := by
      refine halfEven_le (by positivity) ((div_scale_lt number).trans ?_)
      norm_num
    have isScale : scale number ≤ 971 := max_le (by norm_num) (by omega)
    refine min_lt_of_right_lt ?_
    obtain isLess | isEqual := isScale.lt_or_eq
    · unfold infinityBits
      omega
    · have isBelow : halfEven (number / 2 ^ scale number) ≤ 2 ^ 53 - 1 := by
        refine halfEven_le (by positivity) ?_
        rw [isEqual, div_lt_iff₀ (by positivity)]
        refine small.trans_eq ?_
        rw [overflow_eq]
        norm_num
      unfold infinityBits
      omega

/-- A number from the bound on is rounded to infinity. -/
theorem nearest_eq_infinityBits {number : ℚ} (large : overflow ≤ number) :
    nearest number = infinityBits := by
  have positive : 0 < number :=
    lt_of_lt_of_le (by positivity) (two_pow_le_overflow.trans large)
  have isLog : 1023 ≤ Int.log 2 number := by
    refine (Int.zpow_le_iff_le_log one_lt_two positive).mp ?_
    rw [Nat.cast_ofNat]
    exact two_pow_le_overflow.trans large
  have isScale : scale number = Int.log 2 number - 52 := max_eq_right (by omega)
  rw [nearest, if_neg positive.ne']
  refine min_eq_left ?_
  obtain isLarger | isLeast := isLog.lt_or_eq
  · have isLong : 2 ^ 52 ≤ halfEven (number / 2 ^ scale number) := by
      refine le_trans (Nat.le_floor ?_) (floor_le_halfEven _)
      have bound : (2 : ℚ) ^ Int.log 2 number ≤ number := by
        exact_mod_cast Int.zpow_log_le_self one_lt_two positive
      rw [isScale, le_div_iff₀ (by positivity), Nat.cast_pow, Nat.cast_ofNat,
        ← zpow_natCast, ← zpow_add₀ two_ne_zero]
      refine le_trans (zpow_le_zpow_right₀ one_le_two ?_) bound
      push_cast
      omega
    unfold infinityBits
    omega
  · have isRound : 2 ^ 53 - 1 < halfEven (number / 2 ^ scale number) := by
      refine lt_halfEven (by norm_num) ?_
      rw [isScale, ← isLeast, le_div_iff₀ (by positivity)]
      refine le_trans (le_of_eq ?_) large
      rw [overflow_eq]
      norm_num
    unfold infinityBits
    omega

/-- Exactly the numbers from the bound on are rounded to infinity. -/
theorem nearest_eq_infinityBits_iff {number : ℚ} (nonneg : 0 ≤ number) :
    nearest number = infinityBits ↔ overflow ≤ number :=
  ⟨fun isInfinite => not_lt.mp fun small => (nearest_lt nonneg small).ne isInfinite,
    nearest_eq_infinityBits⟩

theorem nearest_le (number : ℚ) : nearest number ≤ infinityBits := by
  unfold nearest
  split
  · exact Nat.zero_le _
  · exact min_le_left _ _

/-! ## The error of rounding -/

/-- The nearest integer is not farther than a half. -/
theorem abs_halfEven_sub_le {number : ℚ} (nonneg : 0 ≤ number) :
    |(halfEven number : ℚ) - number| ≤ 1 / 2 := by
  have isLeast := Nat.floor_le nonneg
  have isMost := Nat.lt_floor_add_one number
  rw [halfEven]
  split
  case isTrue isLow => exact abs_le.mpr ⟨by linarith, by linarith⟩
  case isFalse notLow =>
    split
    case isTrue isHigh => exact abs_le.mpr ⟨by push_cast; linarith, by push_cast; linarith⟩
    case isFalse notHigh =>
      have isTie : number = ⌊number⌋₊ + 1 / 2 := by linarith
      obtain isEven | isOdd := Nat.mod_two_eq_zero_or_one ⌊number⌋₊
      · rw [isEven, Nat.add_zero]
        exact abs_le.mpr ⟨by linarith, by linarith⟩
      · rw [isOdd]
        exact abs_le.mpr ⟨by push_cast; linarith, by push_cast; linarith⟩

/-- An integer that is nearer than a half is the nearest one. -/
theorem halfEven_eq {number : ℚ} {whole : ℕ} (nonneg : 0 ≤ number)
    (near : |number - whole| < 1 / 2) : halfEven number = whole := by
  have isError := abs_halfEven_sub_le nonneg
  have isClose : |((halfEven number : ℤ) - (whole : ℤ) : ℚ)| < 1 := by
    calc |((halfEven number : ℤ) - (whole : ℤ) : ℚ)|
        = |((halfEven number : ℚ) - number) + (number - whole)| := by
          congr 1
          push_cast
          ring
      _ ≤ |(halfEven number : ℚ) - number| + |number - whole| := abs_add_le _ _
      _ < 1 := by linarith
  have isZero : (halfEven number : ℤ) - whole = 0 := Int.abs_lt_one_iff.mp (by exact_mod_cast isClose)
  omega

/-- A number from one to the next power of two has 53 bits at its scale. -/
theorem two_pow_le_halfEven {number : ℚ} (positive : 0 < number)
    (normal : -1022 ≤ Int.log 2 number) :
    2 ^ 52 ≤ halfEven (number / 2 ^ scale number) ∧
      halfEven (number / 2 ^ scale number) ≤ 2 ^ 53 := by
  have isScale : scale number = Int.log 2 number - 52 := max_eq_right (by omega)
  constructor
  · refine le_trans (Nat.le_floor ?_) (floor_le_halfEven _)
    have bound : (2 : ℚ) ^ Int.log 2 number ≤ number := by
      exact_mod_cast Int.zpow_log_le_self one_lt_two positive
    rw [isScale, le_div_iff₀ (by positivity), Nat.cast_pow, Nat.cast_ofNat, ← zpow_natCast,
      ← zpow_add₀ two_ne_zero]
    refine le_trans (zpow_le_zpow_right₀ one_le_two ?_) bound
    push_cast
    omega
  · refine halfEven_le (by positivity) ((div_scale_lt number).trans ?_)
    norm_num

end Binary64
end MuonJs
