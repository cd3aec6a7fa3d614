import MuonJs.Lib.Rounding
import MuonJs.Script.JsonText

/-!
# Arithmetic of doubles

A double that is finite denotes a rational number.  The operations of Rust's `f64`
and of the language are those of IEEE 754: the exact result rounded to the nearest
double, ties to the even significand, with a sign of their own for a zero.
-/

namespace MuonJs
namespace Cache
namespace F64

/-! ## Values -/

/-- `f64::is_sign_negative`. -/
def isNegative (value : F64) : Bool := 2 ^ 63 ≤ value.bits.toNat

/-- `f64::is_infinite`. -/
def isInfinite (value : F64) : Bool := value.magnitude = infinityBits

/-- Either zero. -/
def isZero (value : F64) : Bool := value.magnitude = 0

/-- `f64::NAN`. -/
def nan : F64 := ⟨0x7ff8000000000000⟩

/-- An infinity. -/
def infinity (negative : Bool) : F64 := ofMagnitude negative infinityBits

/-- A zero. -/
def signedZero (negative : Bool) : F64 := ofMagnitude negative 0

/-- The significand as an integer. -/
def significand (value : F64) : ℕ :=
  value.magnitude % 2 ^ 52 + if value.magnitude / 2 ^ 52 = 0 then 0 else 2 ^ 52

/-- The number whose magnitude a double denotes, for a double that is finite. -/
def absRat (value : F64) : ℚ :=
  value.significand * 2 ^ ((max (value.magnitude / 2 ^ 52) 1 : ℕ) - 1075 : ℤ)

/-- The number that a finite double denotes. -/
def toRat (value : F64) : ℚ := if value.isNegative then -value.absRat else value.absRat

/-- The double nearest to a number; a zero gets the sign. -/
def round (zeroSign : Bool) (number : ℚ) : F64 :=
  if number = 0 then signedZero zeroSign
  else ofMagnitude (number < 0) (roundRatio number.num.natAbs number.den)

/-- The same number: equal doubles, or both not a number. -/
def Same (left right : F64) : Prop := left = right ∨ (left.isNan ∧ right.isNan)

theorem Same.refl (value : F64) : Same value value := .inl rfl

/-! ## Operations -/

/-- Negation. -/
def neg (value : F64) : F64 := ofMagnitude (!value.isNegative) value.magnitude

/-- Addition. -/
def add (left right : F64) : F64 :=
  if left.isNan || right.isNan then nan
  else if left.isInfinite then
    if right.isInfinite && left.isNegative != right.isNegative then nan else left
  else if right.isInfinite then right
  else round (left.isNegative && right.isNegative) (left.toRat + right.toRat)

/-- Subtraction. -/
def sub (left right : F64) : F64 := add left right.neg

/-- Multiplication. -/
def mul (left right : F64) : F64 :=
  let negative := left.isNegative != right.isNegative
  if left.isNan || right.isNan then nan
  else if left.isInfinite || right.isInfinite then
    if left.isZero || right.isZero then nan else infinity negative
  else round negative (left.toRat * right.toRat)

/-- Division. -/
def div (left right : F64) : F64 :=
  let negative := left.isNegative != right.isNegative
  if left.isNan || right.isNan then nan
  else if left.isInfinite then
    if right.isInfinite then nan else infinity negative
  else if right.isInfinite then signedZero negative
  else if right.isZero then
    if left.isZero then nan else infinity negative
  else round negative (left.toRat / right.toRat)

/-- Remainder: that of the magnitudes, with the sign of the dividend. -/
def rem (left right : F64) : F64 :=
  if left.isNan || right.isNan then nan
  else if left.isInfinite || right.isZero then nan
  else if right.isInfinite then left
  else
    let rest := left.absRat - right.absRat * ⌊left.absRat / right.absRat⌋₊
    round left.isNegative (if left.isNegative then -rest else rest)

/-! ## Integers -/

/-- The integer part of a finite double. -/
def truncate (value : F64) : ℤ :=
  let exponent := value.magnitude / 2 ^ 52
  let whole : ℕ :=
    if 1075 ≤ exponent then value.significand * 2 ^ (exponent - 1075)
    else value.significand / 2 ^ (1075 - max exponent 1)
  if value.isNegative then -whole else whole

/-- An integer as a double: `as f64` for every integer type. -/
def ofInt (number : ℤ) : F64 := ofMagnitude (number < 0) (roundRatio number.natAbs 1)

theorem toNat_bits_ofMagnitude
    {magnitude : ℕ} (inRange : magnitude < 2 ^ 63) (negative : Bool) :
    (ofMagnitude negative magnitude).bits.toNat =
      if negative then 2 ^ 63 + magnitude else magnitude := by
  rw [ofMagnitude]
  refine UInt64.toNat_ofNat_of_lt' (show _ < 2 ^ 64 from ?_)
  split <;> omega

@[simp] theorem magnitude_ofMagnitude
    {magnitude : ℕ} (inRange : magnitude < 2 ^ 63) (negative : Bool) :
    (ofMagnitude negative magnitude).magnitude = magnitude := by
  rw [F64.magnitude, toNat_bits_ofMagnitude inRange]
  split <;> omega

@[simp] theorem isNegative_ofMagnitude
    {magnitude : ℕ} (inRange : magnitude < 2 ^ 63) (negative : Bool) :
    (ofMagnitude negative magnitude).isNegative = negative := by
  rw [isNegative, toNat_bits_ofMagnitude inRange]
  cases negative with
  | true => exact decide_eq_true (by rw [if_pos rfl]; omega)
  | false => exact decide_eq_false (by rw [if_neg Bool.false_ne_true]; omega)

/-- A double is its sign and its magnitude. -/
theorem ext_iff (left right : F64) :
    left = right ↔
      left.isNegative = right.isNegative ∧ left.magnitude = right.magnitude := by
  constructor
  · rintro rfl
    exact ⟨rfl, rfl⟩
  · rintro ⟨sameSign, sameMagnitude⟩
    have leftBits := left.bits.toNat_lt
    have rightBits := right.bits.toNat_lt
    unfold isNegative at sameSign
    unfold F64.magnitude at sameMagnitude
    rw [decide_eq_decide] at sameSign
    have sameBits : left.bits = right.bits := UInt64.toNat_inj.mp (by omega)
    cases left
    cases right
    exact congrArg F64.mk sameBits

theorem round_intCast (zeroSign : Bool) {number : ℤ} (nonzero : number ≠ 0) :
    round zeroSign number = ofInt number := by
  rw [round, if_neg (Int.cast_ne_zero.mpr nonzero), Rat.num_intCast, Rat.den_intCast, ofInt]
  congr 1
  exact decide_eq_decide.mpr Int.cast_lt_zero

theorem round_zero (zeroSign : Bool) : round zeroSign 0 = signedZero zeroSign :=
  if_pos rfl

/-! ## Rounding -/

section Exponent

variable {num den : ℕ} (numPos : 0 < num) (denPos : 0 < den)

include denPos

/-- The comparison of the code: whether the quotient reaches a power of two. -/
theorem reaches_iff (guess : ℤ) :
    (if 0 ≤ guess then decide (den * 2 ^ guess.toNat ≤ num)
      else decide (den ≤ num * 2 ^ (-guess).toNat)) = true ↔
      (2 : ℚ) ^ guess ≤ num / den := by
  have denPosQ : (0 : ℚ) < den := Nat.cast_pos.mpr denPos
  rw [le_div_iff₀ denPosQ]
  split
  case isTrue nonneg =>
    obtain ⟨power, rfl⟩ := Int.eq_ofNat_of_zero_le nonneg
    rw [decide_eq_true_iff, Int.toNat_natCast, zpow_natCast, mul_comm]
    exact_mod_cast Iff.rfl
  case isFalse negative =>
    obtain ⟨power, isPower⟩ := Int.eq_ofNat_of_zero_le (neg_nonneg.mpr (not_le.mp negative).le)
    obtain rfl : guess = -power := by omega
    rw [decide_eq_true_iff, neg_neg, Int.toNat_natCast, zpow_neg, zpow_natCast,
      inv_mul_le_iff₀ (by positivity), mul_comm]
    exact_mod_cast Iff.rfl

include numPos

/-- The lengths of a numerator and a denominator bound the quotient. -/
theorem two_pow_lt_div_lt :
    (2 : ℚ) ^ ((Nat.log2 num : ℤ) - Nat.log2 den - 1) < num / den ∧
      (num : ℚ) / den < 2 ^ ((Nat.log2 num : ℤ) - Nat.log2 den + 1) := by
  have numPosQ : (0 : ℚ) < num := Nat.cast_pos.mpr numPos
  have denPosQ : (0 : ℚ) < den := Nat.cast_pos.mpr denPos
  have numLow : (2 : ℚ) ^ (Nat.log2 num : ℤ) ≤ num := by
    exact_mod_cast Nat.log2_self_le numPos.ne'
  have numHigh : (num : ℚ) < 2 ^ (Nat.log2 num + 1 : ℤ) := by
    exact_mod_cast @Nat.lt_log2_self num
  have denLow : (2 : ℚ) ^ (Nat.log2 den : ℤ) ≤ den := by
    exact_mod_cast Nat.log2_self_le denPos.ne'
  have denHigh : (den : ℚ) < 2 ^ (Nat.log2 den + 1 : ℤ) := by
    exact_mod_cast @Nat.lt_log2_self den
  constructor
  · calc (2 : ℚ) ^ ((Nat.log2 num : ℤ) - Nat.log2 den - 1)
        = 2 ^ (Nat.log2 num : ℤ) / 2 ^ (Nat.log2 den + 1 : ℤ) := by
          rw [← zpow_sub₀ two_ne_zero, sub_sub]
      _ ≤ num / 2 ^ (Nat.log2 den + 1 : ℤ) :=
          div_le_div_of_nonneg_right numLow (by positivity)
      _ < num / den := div_lt_div_of_pos_left numPosQ denPosQ denHigh
  · calc (num : ℚ) / den
        ≤ num / 2 ^ (Nat.log2 den : ℤ) :=
          div_le_div_of_nonneg_left numPosQ.le (by positivity) denLow
      _ < 2 ^ (Nat.log2 num + 1 : ℤ) / 2 ^ (Nat.log2 den : ℤ) :=
          div_lt_div_of_pos_right numHigh (by positivity)
      _ = 2 ^ ((Nat.log2 num : ℤ) - Nat.log2 den + 1) := by
          rw [← zpow_sub₀ two_ne_zero]
          congr 1
          ring

/-- The comparison of the code finds the exponent of the quotient. -/
theorem log_div_eq :
    Int.log 2 ((num : ℚ) / den) =
      if (if 0 ≤ (Nat.log2 num : ℤ) - Nat.log2 den then
          decide (den * 2 ^ ((Nat.log2 num : ℤ) - Nat.log2 den).toNat ≤ num)
        else decide (den ≤ num * 2 ^ (-((Nat.log2 num : ℤ) - Nat.log2 den)).toNat)) = true then
        (Nat.log2 num : ℤ) - Nat.log2 den
      else (Nat.log2 num : ℤ) - Nat.log2 den - 1 := by
  have ratioPos : (0 : ℚ) < num / den :=
    div_pos (Nat.cast_pos.mpr numPos) (Nat.cast_pos.mpr denPos)
  obtain ⟨low, high⟩ := two_pow_lt_div_lt numPos denPos
  have notMore : Int.log 2 ((num : ℚ) / den) < (Nat.log2 num : ℤ) - Nat.log2 den + 1 :=
    (Int.lt_zpow_iff_log_lt one_lt_two ratioPos).mp (by exact_mod_cast high)
  have notLess : (Nat.log2 num : ℤ) - Nat.log2 den - 1 ≤ Int.log 2 ((num : ℚ) / den) :=
    (Int.zpow_le_iff_le_log one_lt_two ratioPos).mp (by exact_mod_cast low.le)
  have reaches : (Nat.log2 num : ℤ) - Nat.log2 den ≤ Int.log 2 ((num : ℚ) / den) ↔
      (2 : ℚ) ^ ((Nat.log2 num : ℤ) - Nat.log2 den) ≤ num / den := by
    rw [← Int.zpow_le_iff_le_log one_lt_two ratioPos, Nat.cast_ofNat]
  rw [← reaches_iff denPos] at reaches
  generalize (if 0 ≤ (Nat.log2 num : ℤ) - Nat.log2 den then
      decide (den * 2 ^ ((Nat.log2 num : ℤ) - Nat.log2 den).toNat ≤ num)
    else decide (den ≤ num * 2 ^ (-((Nat.log2 num : ℤ) - Nat.log2 den)).toNat)) = isReached
    at reaches ⊢
  cases isReached with
  | true =>
      have atLeast := reaches.mpr rfl
      rw [if_pos rfl]
      omega
  | false =>
      have less := mt reaches.mp Bool.false_ne_true
      rw [if_neg Bool.false_ne_true]
      omega

/-- The rounding of the code is that of binary64. -/
theorem roundRatio_eq : roundRatio num den = Binary64.nearest (num / den) := by
  have ratioPos : (0 : ℚ) < num / den :=
    div_pos (Nat.cast_pos.mpr numPos) (Nat.cast_pos.mpr denPos)
  have isScale : Binary64.scale ((num : ℚ) / den) =
      max (-1074) (Int.log 2 ((num : ℚ) / den) - 52) := rfl
  rw [Binary64.nearest, if_neg ratioPos.ne', roundRatio, if_neg numPos.ne']
  rw [log_div_eq numPos denPos] at isScale
  dsimp only
  rw [← isScale]
  generalize Binary64.scale ((num : ℚ) / den) = scale
  have isSignificand : (if 0 ≤ scale then roundHalfEven num (den * 2 ^ scale.toNat)
      else roundHalfEven (num * 2 ^ (-scale).toNat) den) =
        Binary64.halfEven ((num : ℚ) / den / 2 ^ scale) := by
    split
    case isTrue nonneg =>
      obtain ⟨power, rfl⟩ := Int.eq_ofNat_of_zero_le nonneg
      have denominator : (num : ℚ) / den / 2 ^ (power : ℤ) = num / (den * 2 ^ power : ℕ) := by
        rw [zpow_natCast, div_div]
        push_cast
        rfl
      rw [denominator, Binary64.halfEven_div (by positivity), Int.toNat_natCast]
      rfl
    case isFalse negative =>
      obtain ⟨power, isPower⟩ :=
        Int.eq_ofNat_of_zero_le (neg_nonneg.mpr (not_le.mp negative).le)
      obtain rfl : scale = -power := by omega
      have numerator : (num : ℚ) / den / 2 ^ (-(power : ℤ)) = (num * 2 ^ power : ℕ) / den := by
        rw [zpow_neg, zpow_natCast, div_inv_eq_mul]
        push_cast
        ring
      rw [numerator, Binary64.halfEven_div denPos, neg_neg, Int.toNat_natCast]
      rfl
  rw [isSignificand]
  rfl

end Exponent

/-! ## Integers of 32 bits -/

section Natural

open Script Script.Json

variable {value : ℕ} (small : value < 2 ^ 52)
include small

theorem roundRatio_lt_infinityBits : roundRatio value 1 < infinityBits := by
  by_cases isZero : value = 0
  · rw [isZero]
    decide
  · have isLog : Nat.log2 value < 52 := (Nat.log2_lt isZero).mpr small
    have shifted := (two_pow_le_shifted (Nat.pos_of_ne_zero isZero) small).2
    rw [roundRatio_one (Nat.pos_of_ne_zero isZero) small, infinityBits]
    omega

/-- The exponent and the significand of a natural number. -/
theorem exponent_significand (positive : 0 < value) (negative : Bool) :
    (ofMagnitude negative (roundRatio value 1)).magnitude / 2 ^ 52 = Nat.log2 value + 1023 ∧
      (ofMagnitude negative (roundRatio value 1)).significand =
        value * 2 ^ (52 - Nat.log2 value) := by
  have inRange : roundRatio value 1 < 2 ^ 63 :=
    (roundRatio_lt_infinityBits small).trans (by decide)
  obtain ⟨low, high⟩ := two_pow_le_shifted positive small
  rw [significand, magnitude_ofMagnitude inRange, roundRatio_one positive small]
  generalize value * 2 ^ (52 - Nat.log2 value) = shifted at low high
  have isExponent : ((Nat.log2 value + 1022) * 2 ^ 52 + shifted) / 2 ^ 52 =
      Nat.log2 value + 1023 := by
    omega
  have isFraction : ((Nat.log2 value + 1022) * 2 ^ 52 + shifted) % 2 ^ 52 + 2 ^ 52 =
      shifted := by
    omega
  exact ⟨isExponent, by rw [isExponent, if_neg (by omega), isFraction]⟩

/-- The magnitude of a natural number is exact. -/
theorem absRat_ofMagnitude_roundRatio (negative : Bool) :
    (ofMagnitude negative (roundRatio value 1)).absRat = value := by
  by_cases isZero : value = 0
  · have isNothing : roundRatio 0 1 = 0 := rfl
    rw [isZero, isNothing, absRat, significand, magnitude_ofMagnitude (Nat.two_pow_pos 63)]
    norm_num
  · have positive := Nat.pos_of_ne_zero isZero
    have isLog : Nat.log2 value < 52 := (Nat.log2_lt isZero).mpr small
    obtain ⟨isExponent, isSignificand⟩ := exponent_significand small positive negative
    have scale : ((max (Nat.log2 value + 1023) 1 : ℕ) - 1075 : ℤ) =
        -((52 - Nat.log2 value : ℕ) : ℤ) := by
      omega
    rw [absRat, isExponent, isSignificand, scale, Nat.cast_mul, Nat.cast_pow, Nat.cast_ofNat,
      zpow_neg, zpow_natCast, mul_assoc, mul_inv_cancel₀ (by positivity), mul_one]

/-- A natural number has no fraction. -/
theorem truncate_ofMagnitude_roundRatio (negative : Bool) :
    (ofMagnitude negative (roundRatio value 1)).truncate =
      if negative then -(value : ℤ) else value := by
  have isSign := isNegative_ofMagnitude
    ((roundRatio_lt_infinityBits small).trans (by decide : infinityBits < 2 ^ 63)) negative
  by_cases isZero : value = 0
  · subst isZero
    cases negative <;> decide +kernel
  · have positive := Nat.pos_of_ne_zero isZero
    have isLog : Nat.log2 value < 52 := (Nat.log2_lt isZero).mpr small
    obtain ⟨isExponent, isSignificand⟩ := exponent_significand small positive negative
    have isShift : 1075 - max (Nat.log2 value + 1023) 1 = 52 - Nat.log2 value := by
      omega
    have isLow : ¬1075 ≤ Nat.log2 value + 1023 := by
      omega
    rw [truncate, isExponent, isSignificand, isSign, if_neg isLow, isShift, Nat.mul_div_cancel _ (Nat.two_pow_pos _)]

end Natural

section Int32

open Script Script.Json

variable (n : Int32)

theorem ofInt_toInt : ofInt n.toInt = i32AsF64 n := rfl

theorem infinityBits_lt : infinityBits < 2 ^ 63 := by decide

theorem isNegative_i32AsF64 : (i32AsF64 n).isNegative = decide (n.toInt < 0) :=
  isNegative_ofMagnitude ((roundRatio_toInt_lt n).trans infinityBits_lt) _

theorem isNan_i32AsF64 : (i32AsF64 n).isNan = false := by
  rw [isNan, magnitude_i32AsF64]
  exact decide_eq_false (not_lt.mpr (roundRatio_toInt_lt n).le)

theorem isInfinite_i32AsF64 : (i32AsF64 n).isInfinite = false := by
  rw [isInfinite, magnitude_i32AsF64]
  exact decide_eq_false (roundRatio_toInt_lt n).ne

/-- The magnitude of an integer is exact. -/
theorem absRat_i32AsF64 : (i32AsF64 n).absRat = n.toInt.natAbs :=
  absRat_ofMagnitude_roundRatio (natAbs_toInt_lt n) _

/-- An integer has no fraction. -/
theorem truncate_i32AsF64 : (i32AsF64 n).truncate = n.toInt := by
  rw [i32AsF64, truncate_ofMagnitude_roundRatio (natAbs_toInt_lt n)]
  by_cases negative : n.toInt < 0
  · rw [decide_eq_true negative, if_pos rfl]
    omega
  · rw [decide_eq_false negative, if_neg Bool.false_ne_true]
    omega

/-- An integer is exact. -/
theorem toRat_i32AsF64 : (i32AsF64 n).toRat = n.toInt := by
  rw [toRat, isNegative_i32AsF64, absRat_i32AsF64]
  by_cases negative : n.toInt < 0
  · rw [decide_eq_true negative, if_pos rfl, ← Int.cast_natCast, ← Int.cast_neg]
    congr 1
    omega
  · rw [decide_eq_false negative, if_neg Bool.false_ne_true, ← Int.cast_natCast]
    congr 1
    omega

theorem isZero_i32AsF64 : (i32AsF64 n).isZero = decide (n.toInt = 0) := by
  rw [isZero, magnitude_i32AsF64, decide_eq_decide]
  by_cases isNothing : n.toInt = 0
  · rw [isNothing]
    exact iff_of_true rfl rfl
  · have nonzero : n.toInt.natAbs ≠ 0 := Int.natAbs_ne_zero.mpr isNothing
    have low := (two_pow_le_shifted (Nat.pos_of_ne_zero nonzero) (natAbs_toInt_lt n)).1
    rw [roundRatio_one (Nat.pos_of_ne_zero nonzero) (natAbs_toInt_lt n)]
    exact iff_of_false (by omega) isNothing

end Int32

theorem magnitude_lt (value : F64) : value.magnitude < 2 ^ 63 :=
  Nat.mod_lt _ (Nat.two_pow_pos 63)

@[simp] theorem isNegative_neg (value : F64) : value.neg.isNegative = !value.isNegative :=
  isNegative_ofMagnitude value.magnitude_lt _

@[simp] theorem magnitude_neg (value : F64) : value.neg.magnitude = value.magnitude :=
  magnitude_ofMagnitude value.magnitude_lt _

@[simp] theorem isNan_neg (value : F64) : value.neg.isNan = value.isNan := by
  rw [isNan, isNan, magnitude_neg]

@[simp] theorem isInfinite_neg (value : F64) : value.neg.isInfinite = value.isInfinite := by
  rw [isInfinite, isInfinite, magnitude_neg]

theorem absRat_neg (value : F64) : value.neg.absRat = value.absRat := by
  rw [absRat, absRat, significand, significand, magnitude_neg]

theorem toRat_neg (value : F64) : value.neg.toRat = -value.toRat := by
  rw [toRat, toRat, isNegative_neg, absRat_neg]
  cases value.isNegative with
  | true => exact (neg_neg _).symm
  | false => rfl

/-! ## Operations on integers -/

section Int32

open Script

variable (a b : Int32)

/-- The sum of two integers. -/
theorem add_i32AsF64 : add (i32AsF64 a) (i32AsF64 b) = ofInt (a.toInt + b.toInt) := by
  rw [add, isNan_i32AsF64, isNan_i32AsF64, isInfinite_i32AsF64, isInfinite_i32AsF64,
    toRat_i32AsF64, toRat_i32AsF64, isNegative_i32AsF64, isNegative_i32AsF64, ← Int.cast_add]
  change round _ _ = _
  by_cases isZero : a.toInt + b.toInt = 0
  · have sign : (decide (a.toInt < 0) && decide (b.toInt < 0)) = false := by
      rw [Bool.and_eq_false_iff, decide_eq_false_iff_not, decide_eq_false_iff_not]
      omega
    rw [isZero, sign]
    exact round_zero false
  · exact round_intCast _ isZero

/-- The difference of two integers. -/
theorem sub_i32AsF64 : sub (i32AsF64 a) (i32AsF64 b) = ofInt (a.toInt - b.toInt) := by
  rw [sub, add, isNan_neg, isNan_i32AsF64, isNan_i32AsF64, isInfinite_neg,
    isInfinite_i32AsF64, isInfinite_i32AsF64, toRat_neg, toRat_i32AsF64, toRat_i32AsF64,
    isNegative_neg, isNegative_i32AsF64, isNegative_i32AsF64, ← sub_eq_add_neg, ← Int.cast_sub]
  change round _ _ = _
  by_cases isZero : a.toInt - b.toInt = 0
  · have sign : (decide (a.toInt < 0) && !decide (b.toInt < 0)) = false := by
      rw [Bool.and_eq_false_iff, decide_eq_false_iff_not, Bool.not_eq_false',
        decide_eq_true_iff]
      omega
    rw [isZero, sign]
    exact round_zero false
  · exact round_intCast _ isZero

/-- The product of two integers; a zero has the sign of the rule of signs. -/
theorem mul_i32AsF64 :
    mul (i32AsF64 a) (i32AsF64 b) =
      if a.toInt * b.toInt = 0 then signedZero (decide (a.toInt < 0) != decide (b.toInt < 0))
      else ofInt (a.toInt * b.toInt) := by
  rw [mul, isNan_i32AsF64, isNan_i32AsF64, isInfinite_i32AsF64, isInfinite_i32AsF64,
    toRat_i32AsF64, toRat_i32AsF64, isNegative_i32AsF64, isNegative_i32AsF64, ← Int.cast_mul]
  change round _ _ = _
  split
  case isTrue isZero =>
    rw [isZero]
    exact round_zero _
  case isFalse nonzero => exact round_intCast _ nonzero

/-- The quotient of two integers, the second of which divides the first. -/
theorem div_i32AsF64 (nonzero : b.toInt ≠ 0) (divides : b.toInt ∣ a.toInt) :
    div (i32AsF64 a) (i32AsF64 b) =
      if a.toInt = 0 then signedZero (decide (b.toInt < 0))
      else ofInt (a.toInt.tdiv b.toInt) := by
  have quotient : (a.toInt : ℚ) / b.toInt = (a.toInt.tdiv b.toInt : ℤ) := by
    obtain ⟨factor, isProduct⟩ := divides
    rw [isProduct, Int.mul_tdiv_cancel_left _ nonzero, Int.cast_mul,
      mul_div_cancel_left₀ _ (Int.cast_ne_zero.mpr nonzero)]
  rw [div, isNan_i32AsF64, isNan_i32AsF64, isInfinite_i32AsF64, isInfinite_i32AsF64,
    isZero_i32AsF64, decide_eq_false nonzero, toRat_i32AsF64, toRat_i32AsF64,
    isNegative_i32AsF64, isNegative_i32AsF64, quotient]
  change round _ _ = _
  split
  case isTrue isZero =>
    rw [isZero, Int.zero_tdiv, decide_eq_false (lt_irrefl 0), Bool.false_bne]
    exact round_zero _
  case isFalse dividend =>
    refine round_intCast _ fun isNothing => dividend ?_
    obtain ⟨factor, isProduct⟩ := divides
    rw [isProduct, Int.mul_tdiv_cancel_left _ nonzero] at isNothing
    rw [isProduct, isNothing, mul_zero]

/-- The remainder of two integers; a zero has the sign of the dividend. -/
theorem rem_i32AsF64 (nonzero : b.toInt ≠ 0) :
    rem (i32AsF64 a) (i32AsF64 b) =
      if a.toInt.tmod b.toInt = 0 then signedZero (decide (a.toInt < 0))
      else ofInt (a.toInt.tmod b.toInt) := by
  have rest : ((a.toInt.natAbs : ℚ) - b.toInt.natAbs *
      ⌊(a.toInt.natAbs : ℚ) / b.toInt.natAbs⌋₊) = (a.toInt.natAbs % b.toInt.natAbs : ℕ) := by
    have isFloor : ⌊(a.toInt.natAbs : ℚ) / b.toInt.natAbs⌋₊ =
        a.toInt.natAbs / b.toInt.natAbs := Nat.floor_div_eq_div _ _
    have whole := Nat.mod_add_div a.toInt.natAbs b.toInt.natAbs
    rw [isFloor, sub_eq_iff_eq_add, ← Nat.cast_mul, ← Nat.cast_add, whole]
  have signed : (if decide (a.toInt < 0) then -((a.toInt.natAbs % b.toInt.natAbs : ℕ) : ℚ)
      else (a.toInt.natAbs % b.toInt.natAbs : ℕ)) = (a.toInt.tmod b.toInt : ℤ) := by
    have isRest := Int.natAbs_tmod a.toInt b.toInt
    by_cases negative : a.toInt < 0
    · have sign := Int.tmod_nonneg b.toInt (neg_nonneg.mpr negative.le)
      rw [Int.neg_tmod] at sign
      rw [decide_eq_true negative, if_pos rfl, ← isRest, ← Int.cast_natCast, ← Int.cast_neg]
      congr 1
      omega
    · have sign := Int.tmod_nonneg b.toInt (not_lt.mp negative)
      rw [decide_eq_false negative, if_neg Bool.false_ne_true, ← isRest, ← Int.cast_natCast]
      congr 1
      omega
  rw [rem, isNan_i32AsF64, isNan_i32AsF64, isInfinite_i32AsF64, isInfinite_i32AsF64,
    isZero_i32AsF64, decide_eq_false nonzero, absRat_i32AsF64, absRat_i32AsF64,
    isNegative_i32AsF64]
  change round _ (if decide (a.toInt < 0) then -_ else _) = _
  rw [rest, signed]
  split
  case isTrue isZero =>
    rw [isZero]
    exact round_zero _
  case isFalse notZero => exact round_intCast _ notZero

/-- The negation of an integer that is not zero. -/
theorem neg_i32AsF64 :
    neg (i32AsF64 a) = if a.toInt = 0 then signedZero true else ofInt (-a.toInt) := by
  rw [neg, isNegative_i32AsF64, Json.magnitude_i32AsF64]
  split
  case isTrue isZero =>
    rw [isZero]
    rfl
  case isFalse nonzero =>
    rw [ofInt, Int.natAbs_neg]
    congr 1
    rw [← decide_not, decide_eq_decide]
    omega

end Int32

end F64
end Cache
end MuonJs
