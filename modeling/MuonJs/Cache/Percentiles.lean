import MuonJs.Cache.Core
import MuonJs.Script.DoubleOrder
import MuonJs.Script.NumericLiterals

/-!
# Percentiles

The index of a percentile is a product of doubles that is rounded.  For the quantiles of
the metrics the error of the product never moves it across a half, and a product that is
a half is exact, so the index is the rank.
-/

namespace MuonJs
namespace Cache
namespace Core

/-! ## Ranks -/

/-- The rank of a quantile among some samples. -/
def rank (count : ℕ) (q : ℚ) : ℕ := ⌊((count - 1 : ℕ) : ℚ) * q + 1 / 2⌋₊

/-- A quantile below one, as the double nearest to it from below. -/
structure Quantile (p : F64) (num den : ℕ) : Prop where
  notNan : p.isNan = false
  finite : p.isInfinite = false
  positive : p.isNegative = false
  inRange : 0 < den ∧ den ≤ 100 ∧ num < den
  atLeast : 1 / 2 ≤ p.toRat
  below : p.toRat ≤ (num : ℚ) / den
  close : (num : ℚ) / den - p.toRat < p.toRat / 2 ^ 54

theorem toRat_ofInt_natCast {n : ℕ} (small : n < 2 ^ 52) :
    (F64.ofInt (n : ℕ)).isNan = false ∧ (F64.ofInt (n : ℕ)).isInfinite = false ∧
      (F64.ofInt (n : ℕ)).isNegative = false ∧ (F64.ofInt (n : ℕ)).toRat = n := by
  have finite := F64.roundRatio_lt_infinityBits small
  have isForm : F64.ofInt (n : ℕ) = F64.ofMagnitude false (F64.roundRatio n 1) := by
    rw [F64.ofInt, Int.natAbs_natCast, decide_eq_false (by omega)]
  have inRange := finite.trans F64.infinityBits_lt
  rw [isForm, F64.isNan, F64.isInfinite, F64.toRat, F64.isNegative_ofMagnitude inRange,
    F64.magnitude_ofMagnitude inRange, F64.absRat_ofMagnitude_roundRatio small]
  exact ⟨decide_eq_false (by omega), decide_eq_false (by omega), rfl, rfl⟩

/-- The product of a count and a quantile is the double nearest to it. -/
theorem mul_ofInt {p : F64} {num den : ℕ} (quantile : Quantile p num den) {n : ℕ}
    (small : n < 2 ^ 52) :
    F64.mul (F64.ofInt (n : ℕ)) p = F64.ofMagnitude false (Binary64.nearest (n * p.toRat)) := by
  obtain ⟨notNan, finite, positive, isNumber⟩ := toRat_ofInt_natCast small
  have nonneg : (0 : ℚ) ≤ n * p.toRat :=
    mul_nonneg (Nat.cast_nonneg n) (le_trans (by norm_num) quantile.atLeast)
  have isRound := Script.round_eq false nonneg
  rw [if_neg Bool.false_ne_true] at isRound
  rw [F64.mul, notNan, quantile.notNan, finite, quantile.finite, positive, quantile.positive,
    isNumber, ← isRound]
  rfl

/-- The rank in whole numbers. -/
theorem rank_eq (n num : ℕ) {den : ℕ} (positive : 0 < den) :
    (n : ℚ) * (num / den) + 1 / 2 = ((2 * n * num + den : ℕ) : ℚ) / (2 * den : ℕ) := by
  have isPositive : (den : ℚ) ≠ 0 := (Nat.cast_pos.mpr positive).ne'
  push_cast
  field_simp

/-- A number just below a quotient of small integers is rounded to the same side of every
half as the quotient. -/
theorem floor_rounded {number product : ℚ} {num den places : ℕ} (numberPos : 0 < number)
    (isSmall : number ≤ 4095) (isBelow : number ≤ product)
    (isClose : product - number < number / 2 ^ 54)
    (isQuotient : product + 1 / 2 = (num : ℚ) / den) (denPos : 0 < den) (denSmall : den ≤ 200)
    (isFine : 40 ≤ places) (isLess : number / 2 ^ (-((places : ℤ) + 1)) < 2 ^ 53) :
    ⌊(Binary64.halfEven (number / 2 ^ (-((places : ℤ) + 1))) : ℚ) * 2 ^ (-((places : ℤ) + 1)) +
      1 / 2⌋₊ = num / den := by
  have isUnit : (2 : ℚ) ^ (-((places : ℤ) + 1)) = 1 / 2 ^ (places + 1) := by
    rw [zpow_neg, one_div]
    norm_cast
  rw [isUnit] at isLess ⊢
  have unitPos : (0 : ℚ) < 1 / 2 ^ (places + 1) := by positivity
  have unitSmall : (1 : ℚ) / 2 ^ (places + 1) ≤ 1 / 2 ^ 41 :=
    one_div_le_one_div_of_le (by positivity)
      (by exact_mod_cast Nat.pow_le_pow_right two_pos (by omega : 41 ≤ places + 1))
  have isPositive : (0 : ℚ) < den := Nat.cast_pos.mpr denPos
  have isDen : (den : ℚ) ≤ 200 := by exact_mod_cast denSmall
  have isPart : (1 : ℚ) / 200 ≤ 1 / den := one_div_le_one_div_of_le isPositive isDen
  -- the quotient is its floor and a remainder of a multiple of `1 / den`
  have isSum : product + 1 / 2 = (num / den : ℕ) + ((num % den : ℕ) : ℚ) / den := by
    have isNum : (num : ℚ) = den * (num / den : ℕ) + (num % den : ℕ) := by
      exact_mod_cast (Nat.div_add_mod num den).symm
    rw [isQuotient, eq_comm, eq_div_iff isPositive.ne', add_mul, div_mul_cancel₀ _ isPositive.ne']
    linarith
  have isError := Binary64.abs_halfEven_sub_le (div_nonneg numberPos.le unitPos.le)
  set unit : ℚ := 1 / 2 ^ (places + 1)
  have isNear : |Binary64.halfEven (number / unit) * unit - number| ≤ unit / 2 := by
    have isScaled := mul_le_mul_of_nonneg_right isError unitPos.le
    rw [← abs_of_pos unitPos, ← abs_mul, abs_of_pos unitPos, sub_mul,
      div_mul_cancel₀ _ unitPos.ne'] at isScaled
    linarith
  obtain ⟨isLow, isHigh⟩ := abs_le.mp isNear
  have nonneg : (0 : ℚ) ≤ Binary64.halfEven (number / unit) * unit + 1 / 2 := by positivity
  rw [Nat.floor_eq_iff nonneg]
  have isRest : num % den + 1 ≤ den := Nat.mod_lt num denPos
  have restSmall : ((num % den : ℕ) : ℚ) / den ≤ 1 - 1 / den := by
    rw [le_sub_iff_add_le, ← add_div, div_le_one isPositive]
    exact_mod_cast isRest
  refine ⟨?_, by linarith⟩
  by_cases isTie : num % den = 0
  · rw [isTie, Nat.cast_zero, zero_div, add_zero] at isSum
    have notZero : num / den ≠ 0 := by
      intro isZero
      rw [isZero, Nat.cast_zero] at isSum
      linarith
    obtain ⟨whole, isWhole⟩ := Nat.exists_eq_succ_of_ne_zero notZero
    have isProduct : product / unit = ((2 * whole + 1) * 2 ^ places : ℕ) := by
      have isHalf : product = whole + 1 / 2 := by
        rw [isWhole] at isSum
        push_cast at isSum
        linarith
      rw [isHalf, div_div_eq_mul_div, div_one, pow_succ]
      push_cast
      ring
    have isNearest : Binary64.halfEven (number / unit) = (2 * whole + 1) * 2 ^ places := by
      refine Binary64.halfEven_eq (div_nonneg numberPos.le unitPos.le) ?_
      have isGap : (product - number) / unit < 1 / 2 := by
        calc (product - number) / unit
            < number / 2 ^ 54 / unit := div_lt_div_of_pos_right isClose unitPos
          _ = number / unit / 2 ^ 54 := div_right_comm _ _ _
          _ < 2 ^ 53 / 2 ^ 54 := div_lt_div_of_pos_right isLess (by positivity)
          _ = 1 / 2 := by norm_num
      rw [← isProduct, ← sub_div, abs_div, abs_of_pos unitPos, abs_sub_comm,
        abs_of_nonneg (by linarith)]
      exact isGap
    rw [isNearest, ← isProduct, div_mul_cancel₀ _ unitPos.ne']
    linarith
  · have restLarge : 1 / den ≤ ((num % den : ℕ) : ℚ) / den := by
      refine (div_le_div_iff_of_pos_right isPositive).mpr ?_
      exact_mod_cast Nat.one_le_iff_ne_zero.mpr isTie
    linarith

section Product

variable {p : F64} {num den : ℕ} (quantile : Quantile p num den) {n : ℕ} (positive : 0 < n)
  (small : n < 4096)
include quantile positive small

/-- The product lies between a half and 4095, and close below the quotient. -/
theorem product_bounds :
    1 / 2 ≤ n * p.toRat ∧ n * p.toRat ≤ 4095 ∧ n * p.toRat ≤ (n : ℚ) * (num / den) ∧
      (n : ℚ) * (num / den) - n * p.toRat < n * p.toRat / 2 ^ 54 := by
  obtain ⟨denPos, denSmall, less⟩ := quantile.inRange
  have isPositive : (0 : ℚ) < den := Nat.cast_pos.mpr denPos
  have atLeast := quantile.atLeast
  have isOne : (1 : ℚ) ≤ n := by exact_mod_cast positive
  have isSmall : (n : ℚ) ≤ 4095 := by exact_mod_cast Nat.le_of_lt_succ small
  have below := quantile.below
  have isLess : (num : ℚ) / den ≤ 1 := (div_le_one isPositive).mpr (by exact_mod_cast less.le)
  refine ⟨by nlinarith, by nlinarith, mul_le_mul_of_nonneg_left below (Nat.cast_nonneg n), ?_⟩
  have isScaled := mul_lt_mul_of_pos_left quantile.close (by linarith : (0 : ℚ) < n)
  rw [← mul_sub]
  refine isScaled.trans_eq ?_
  ring

/-- The last place of the product. -/
theorem product_scale : ∃ places : ℕ, Binary64.scale (n * p.toRat) = -((places : ℤ) + 1) ∧
    40 ≤ places ∧ -1022 ≤ Int.log 2 (n * p.toRat) ∧ Int.log 2 (n * p.toRat) < 1000 := by
  obtain ⟨isHalf, isSmall, -, -⟩ := product_bounds quantile positive small
  have isPositive : 0 < n * p.toRat := lt_of_lt_of_le (by norm_num) isHalf
  have isLow : -1 ≤ Int.log 2 (n * p.toRat) := by
    refine (Int.zpow_le_iff_le_log one_lt_two isPositive).mp ?_
    rw [Nat.cast_ofNat]
    exact le_trans (by norm_num) isHalf
  have isHigh : Int.log 2 (n * p.toRat) < 12 := by
    refine (Int.lt_zpow_iff_log_lt one_lt_two isPositive).mp ?_
    rw [Nat.cast_ofNat]
    exact lt_of_le_of_lt isSmall (by norm_num)
  have isScale : Binary64.scale (n * p.toRat) = Int.log 2 (n * p.toRat) - 52 :=
    max_eq_right (by omega)
  exact ⟨(51 - Int.log 2 (n * p.toRat)).toNat, by omega, by omega, by omega, by omega⟩

/-- The rounded product is the rank. -/
theorem floor_nearest :
    ⌊F64.magnitudeRat (Binary64.nearest (n * p.toRat)) + 1 / 2⌋₊ =
      ⌊(n : ℚ) * (num / den) + 1 / 2⌋₊ := by
  obtain ⟨denPos, denSmall, -⟩ := quantile.inRange
  obtain ⟨isHalf, isSmall, isBelow, isClose⟩ := product_bounds quantile positive small
  obtain ⟨places, isScale, isFine, isNormal, isFinite⟩ := product_scale quantile positive small
  have numberPos : 0 < n * p.toRat := lt_of_lt_of_le (by norm_num) isHalf
  have isLess := Binary64.div_scale_lt (n * p.toRat)
  rw [F64.magnitudeRat_nearest numberPos isNormal isFinite, rank_eq n num denPos,
    Nat.floor_div_eq_div]
  rw [isScale] at isLess ⊢
  exact floor_rounded numberPos isSmall isBelow isClose (rank_eq n num denPos) (by omega) (by omega)
    isFine isLess

end Product

/-- The index that is computed is the rank. -/
theorem roundAsUsize_mul {p : F64} {num den : ℕ} (quantile : Quantile p num den) {n : ℕ}
    (small : n < 4096) :
    roundAsUsize (F64.mul (F64.ofInt (n : ℕ)) p) = rank (n + 1) (num / den) := by
  obtain ⟨denPos, -, less⟩ := quantile.inRange
  have isLow : Binary64.nearest (n * p.toRat) ≤ F64.infinityBits := Binary64.nearest_le _
  have inRange := isLow.trans_lt F64.infinityBits_lt
  have isFloor : ⌊F64.magnitudeRat (Binary64.nearest (n * p.toRat)) + 1 / 2⌋₊ =
      ⌊(n : ℚ) * (num / den) + 1 / 2⌋₊ := by
    by_cases isZero : n = 0
    · have isNothing : Binary64.nearest 0 = 0 := if_pos rfl
      rw [isZero, Nat.cast_zero, zero_mul, zero_mul, isNothing, F64.magnitudeRat_zero]
    · exact floor_nearest quantile (Nat.pos_of_ne_zero isZero) small
  have isSmall : (2 * n * num + den) / (2 * den) ≤ 2 ^ 64 - 1 := by
    refine (Nat.div_le_div_right (Nat.add_le_add_right (Nat.mul_le_mul_left (2 * n) less.le) den)).trans ?_
    rw [show 2 * n * den + den = (2 * n + 1) * den by ring, Nat.mul_div_mul_right _ _ denPos]
    omega
  rw [mul_ofInt quantile (by omega), roundAsUsize, F64.isNan, F64.isNegative_ofMagnitude inRange,
    F64.magnitude_ofMagnitude inRange, decide_eq_false (Nat.not_lt.mpr isLow), if_neg (by decide),
    F64.toRat, F64.isNegative_ofMagnitude inRange, if_neg Bool.false_ne_true, F64.absRat_eq,
    F64.magnitude_ofMagnitude inRange, isFloor, rank, Nat.add_sub_cancel]
  refine min_eq_right ?_
  rw [rank_eq n num denPos, Nat.floor_div_eq_div]
  exact isSmall

theorem rank_lt {count num den : ℕ} (positive : 0 < count) (denPos : 0 < den) (less : num < den) :
    rank count (num / den) < count := by
  rw [rank, rank_eq _ _ denPos, Nat.floor_div_eq_div, Nat.div_lt_iff_lt_mul (by omega)]
  obtain ⟨n, rfl⟩ := Nat.exists_eq_succ_of_ne_zero positive.ne'
  rw [Nat.succ_sub_one, Nat.succ_eq_add_one]
  have isLess : 2 * n * num ≤ 2 * n * den := Nat.mul_le_mul_left _ less.le
  have isSplit : (n + 1) * (2 * den) = 2 * n * den + 2 * den := by ring
  omega

/-- A percentile is the sample of its rank. -/
theorem percentile_eq {p : F64} {num den : ℕ} (quantile : Quantile p num den)
    {samples : List UInt32} (nonempty : samples ≠ []) (small : samples.length ≤ 4096) :
    samples[rank samples.length (num / den)]?.map UInt32.toUInt64 = some (percentile samples p) := by
  have positive := List.length_pos_iff.mpr nonempty
  have isRank := roundAsUsize_mul quantile (by omega : samples.length - 1 < 4096)
  rw [Nat.sub_add_cancel positive] at isRank
  have inRange := rank_lt positive quantile.inRange.1 quantile.inRange.2.2
  rw [percentile, if_neg (by simpa using nonempty)]
  dsimp only
  rw [isRank, min_eq_left (by omega), List.getD_eq_getElem?_getD, List.getElem?_eq_getElem inRange]
  rfl

/-- The number of a double between a half and one. -/
theorem toRat_of_parts {p : F64} {significand : ℕ} (isSign : p.isNegative = false)
    (isExponent : p.magnitude / 2 ^ 52 = 1022) (isSignificand : p.significand = significand) :
    p.toRat = significand / 2 ^ 53 := by
  have isPower : ((max 1022 1 : ℕ) - 1075 : ℤ) = -53 := rfl
  rw [F64.toRat, isSign, if_neg Bool.false_ne_true, F64.absRat, isExponent, isSignificand, isPower,
    zpow_neg, ← div_eq_mul_inv]
  norm_cast

theorem quantile_half : Quantile ⟨0x3FE0000000000000⟩ 1 2 := by
  have isNumber := @toRat_of_parts ⟨0x3FE0000000000000⟩ 4503599627370496 rfl rfl rfl
  refine ⟨rfl, rfl, rfl, by decide, ?_, ?_, ?_⟩
  · rw [isNumber]
    norm_num
  · rw [isNumber]
    norm_num
  · rw [isNumber]
    norm_num

theorem quantile_95 : Quantile ⟨0x3FEE666666666666⟩ 95 100 := by
  have isNumber := @toRat_of_parts ⟨0x3FEE666666666666⟩ 8556839292003942 rfl rfl rfl
  refine ⟨rfl, rfl, rfl, by decide, ?_, ?_, ?_⟩
  · rw [isNumber]
    norm_num
  · rw [isNumber]
    norm_num
  · rw [isNumber]
    norm_num

theorem quantile_99 : Quantile ⟨0x3FEFAE147AE147AE⟩ 99 100 := by
  have isNumber := @toRat_of_parts ⟨0x3FEFAE147AE147AE⟩ 8917127262193582 rfl rfl rfl
  refine ⟨rfl, rfl, rfl, by decide, ?_, ?_, ?_⟩
  · rw [isNumber]
    norm_num
  · rw [isNumber]
    norm_num
  · rw [isNumber]
    norm_num

/-- Sorted samples grow with their place. -/
theorem le_of_getElem? {samples : List UInt32} (sorted : samples.Pairwise (· ≤ ·)) {i j : ℕ}
    {first second : UInt32} (isFirst : samples[i]? = some first) (isSecond : samples[j]? = some second)
    (isOrdered : i ≤ j) : first ≤ second := by
  obtain rfl | isBefore := isOrdered.eq_or_lt
  · rw [isFirst] at isSecond
    rw [Option.some.inj isSecond]
    exact UInt32.le_refl _
  · obtain ⟨firstRange, rfl⟩ := List.getElem?_eq_some_iff.mp isFirst
    obtain ⟨secondRange, rfl⟩ := List.getElem?_eq_some_iff.mp isSecond
    exact List.pairwise_iff_getElem.mp sorted _ _ firstRange secondRange isBefore

theorem percentile_le {p q : F64} {num den num' den' : ℕ} (first : Quantile p num den)
    (second : Quantile q num' den') (less : (num : ℚ) / den ≤ (num' : ℚ) / den')
    {samples : List UInt32} (sorted : samples.Pairwise (· ≤ ·)) (small : samples.length ≤ 4096) :
    percentile samples p ≤ percentile samples q := by
  by_cases isEmpty : samples = []
  · have isNothing (r : F64) : percentile [] r = 0 := if_pos rfl
    rw [isEmpty, isNothing, isNothing]
    exact UInt64.le_refl _
  · have isRank : rank samples.length (num / den) ≤ rank samples.length (num' / den') := by
      have isLess : ((samples.length - 1 : ℕ) : ℚ) * (num / den) ≤
          ((samples.length - 1 : ℕ) : ℚ) * (num' / den') :=
        mul_le_mul_of_nonneg_left less (Nat.cast_nonneg _)
      exact Nat.floor_le_floor (add_le_add_left isLess _)
    obtain ⟨firstSample, isFirst, firstValue⟩ :=
      Option.map_eq_some_iff.mp (percentile_eq first isEmpty small)
    obtain ⟨secondSample, isSecond, secondValue⟩ :=
      Option.map_eq_some_iff.mp (percentile_eq second isEmpty small)
    have isLess := le_of_getElem? sorted isFirst isSecond isRank
    rw [← firstValue, ← secondValue, UInt64.le_iff_toNat_le, UInt32.toNat_toUInt64,
      UInt32.toNat_toUInt64]
    exact UInt32.le_iff_toNat_le.mp isLess

end Core
end Cache
end MuonJs
