import MuonJs.Script.Doubles

/-!
# The order of doubles

The keys of finite doubles are ordered as the numbers that they denote.  A difference of
two doubles is positive exactly if the first one is greater: two different doubles are at
least the least positive double apart, so rounding does not make them equal.
-/

namespace MuonJs
namespace Cache
namespace F64

/-! ## Magnitudes -/

/-- The number of a magnitude. -/
def magnitudeRat (magnitude : ℕ) : ℚ :=
  (magnitude % 2 ^ 52 + if magnitude / 2 ^ 52 = 0 then 0 else 2 ^ 52 : ℕ) *
    2 ^ ((max (magnitude / 2 ^ 52) 1 : ℕ) - 1075 : ℤ)

theorem absRat_eq (value : F64) : value.absRat = magnitudeRat value.magnitude := rfl

theorem magnitudeRat_zero : magnitudeRat 0 = 0 := by
  rw [magnitudeRat]
  norm_num

/-- A magnitude is less than the first one with the next exponent. -/
theorem magnitudeRat_lt_two_pow (magnitude : ℕ) :
    magnitudeRat magnitude < 2 ^ ((magnitude / 2 ^ 52 : ℕ) + 1 - 1023 : ℤ) := by
  have fraction : magnitude % 2 ^ 52 < 2 ^ 52 := Nat.mod_lt _ (Nat.two_pow_pos 52)
  rw [magnitudeRat]
  split
  · rename_i isZero
    have small : ((magnitude % 2 ^ 52 + 0 : ℕ) : ℚ) < 2 ^ 52 := by
      exact_mod_cast fraction
    rw [isZero]
    calc ((magnitude % 2 ^ 52 + 0 : ℕ) : ℚ) * 2 ^ ((max 0 1 : ℕ) - 1075 : ℤ)
        < 2 ^ 52 * 2 ^ ((max 0 1 : ℕ) - 1075 : ℤ) :=
          mul_lt_mul_of_pos_right small (by positivity)
      _ = 2 ^ ((0 : ℕ) + 1 - 1023 : ℤ) := by
          rw [← zpow_natCast, ← zpow_add₀ two_ne_zero]
          rfl
  · rename_i nonzero
    have small : ((magnitude % 2 ^ 52 + 2 ^ 52 : ℕ) : ℚ) < 2 ^ 53 := by
      have : magnitude % 2 ^ 52 + 2 ^ 52 < 2 ^ 53 := by omega
      exact_mod_cast this
    rw [max_eq_left (Nat.one_le_iff_ne_zero.mpr nonzero)]
    calc ((magnitude % 2 ^ 52 + 2 ^ 52 : ℕ) : ℚ) * 2 ^ ((magnitude / 2 ^ 52 : ℕ) - 1075 : ℤ)
        < 2 ^ 53 * 2 ^ ((magnitude / 2 ^ 52 : ℕ) - 1075 : ℤ) :=
          mul_lt_mul_of_pos_right small (by positivity)
      _ = 2 ^ ((magnitude / 2 ^ 52 : ℕ) + 1 - 1023 : ℤ) := by
          rw [← zpow_natCast, ← zpow_add₀ two_ne_zero,
            show ((53 : ℕ) : ℤ) + ((magnitude / 2 ^ 52 : ℕ) - 1075) =
              (magnitude / 2 ^ 52 : ℕ) + 1 - 1023 by omega]

theorem two_pow_le_magnitudeRat {magnitude : ℕ} (normal : magnitude / 2 ^ 52 ≠ 0) :
    (2 : ℚ) ^ ((magnitude / 2 ^ 52 : ℕ) - 1023 : ℤ) ≤ magnitudeRat magnitude := by
  rw [magnitudeRat, if_neg normal, max_eq_left (Nat.one_le_iff_ne_zero.mpr normal)]
  have large : (2 : ℚ) ^ 52 ≤ (magnitude % 2 ^ 52 + 2 ^ 52 : ℕ) := by
    have : 2 ^ 52 ≤ magnitude % 2 ^ 52 + 2 ^ 52 := Nat.le_add_left _ _
    exact_mod_cast this
  calc (2 : ℚ) ^ ((magnitude / 2 ^ 52 : ℕ) - 1023 : ℤ)
      = 2 ^ 52 * 2 ^ ((magnitude / 2 ^ 52 : ℕ) - 1075 : ℤ) := by
        rw [← zpow_natCast, ← zpow_add₀ two_ne_zero,
          show ((52 : ℕ) : ℤ) + ((magnitude / 2 ^ 52 : ℕ) - 1075) =
            (magnitude / 2 ^ 52 : ℕ) - 1023 by omega]
    _ ≤ (magnitude % 2 ^ 52 + 2 ^ 52 : ℕ) * 2 ^ ((magnitude / 2 ^ 52 : ℕ) - 1075 : ℤ) :=
        mul_le_mul_of_nonneg_right large (by positivity)

theorem magnitudeRat_lt {left right : ℕ} (less : left < right) :
    magnitudeRat left < magnitudeRat right := by
  obtain same | exponents := (Nat.div_le_div_right (c := 2 ^ 52) less.le).eq_or_lt
  · have fractions : left % 2 ^ 52 < right % 2 ^ 52 := by
      have := Nat.div_add_mod left (2 ^ 52)
      have := Nat.div_add_mod right (2 ^ 52)
      rw [same] at *
      omega
    rw [magnitudeRat, magnitudeRat, same]
    refine mul_lt_mul_of_pos_right ?_ (by positivity)
    exact_mod_cast Nat.add_lt_add_right fractions _
  · have normal : right / 2 ^ 52 ≠ 0 := by omega
    refine (magnitudeRat_lt_two_pow left).trans_le (le_trans ?_ (two_pow_le_magnitudeRat normal))
    refine zpow_le_zpow_right₀ one_le_two ?_
    omega

theorem magnitudeRat_lt_iff {left right : ℕ} :
    magnitudeRat left < magnitudeRat right ↔ left < right := by
  constructor
  · intro less
    by_contra notLess
    obtain greater | same := (Nat.le_of_not_lt notLess).lt_or_eq
    · exact absurd (magnitudeRat_lt greater) (not_lt.mpr less.le)
    · rw [same] at less
      exact lt_irrefl _ less
  · exact magnitudeRat_lt

theorem magnitudeRat_nonneg (magnitude : ℕ) : 0 ≤ magnitudeRat magnitude := by
  rw [magnitudeRat]
  positivity

/-- The least positive double. -/
def leastPositive : ℚ := 2 ^ (-1074 : ℤ)

/-- Every magnitude is a multiple of the least positive one. -/
theorem magnitudeRat_multiple (magnitude : ℕ) :
    ∃ count : ℕ, magnitudeRat magnitude = count * leastPositive := by
  have exponent : ((max (magnitude / 2 ^ 52) 1 : ℕ) - 1075 : ℤ) =
      ((max (magnitude / 2 ^ 52) 1 - 1 : ℕ) : ℤ) + (-1074) := by
    have : 1 ≤ max (magnitude / 2 ^ 52) 1 := le_max_right _ _
    omega
  refine ⟨(magnitude % 2 ^ 52 + if magnitude / 2 ^ 52 = 0 then 0 else 2 ^ 52) *
    2 ^ (max (magnitude / 2 ^ 52) 1 - 1), ?_⟩
  rw [magnitudeRat, exponent, zpow_add₀ two_ne_zero, zpow_natCast, ← leastPositive]
  push_cast
  ring

/-- The number of the magnitude nearest to a number. -/
theorem magnitudeRat_nearest {number : ℚ} (positive : 0 < number)
    (normal : -1022 ≤ Int.log 2 number) (small : Int.log 2 number < 1000) :
    magnitudeRat (Binary64.nearest number) =
      Binary64.halfEven (number / 2 ^ Binary64.scale number) * 2 ^ Binary64.scale number := by
  obtain ⟨isLeast, isMost⟩ := Binary64.two_pow_le_halfEven positive normal
  have isScale : Binary64.scale number = Int.log 2 number - 52 := max_eq_right (by omega)
  obtain ⟨exponent, isExponent⟩ : ∃ exponent : ℕ, Binary64.scale number + 1074 = exponent :=
    ⟨(Binary64.scale number + 1074).toNat, by omega⟩
  have isPower : Binary64.scale number = exponent - 1074 := by omega
  rw [Binary64.nearest, if_neg positive.ne']
  generalize Binary64.halfEven (number / 2 ^ Binary64.scale number) = shifted at *
  have inRange : exponent * 2 ^ 52 + shifted ≤ Binary64.infinityBits := by
    unfold Binary64.infinityBits
    omega
  rw [isExponent, Int.toNat_natCast, min_eq_right inRange, magnitudeRat]
  obtain isShort | isLong := isMost.lt_or_eq
  · have isQuotient : (exponent * 2 ^ 52 + shifted) / 2 ^ 52 = exponent + 1 := by omega
    have isRest : (exponent * 2 ^ 52 + shifted) % 2 ^ 52 + 2 ^ 52 = shifted := by omega
    rw [isQuotient, if_neg (Nat.succ_ne_zero _), isRest, max_eq_left (by omega), isPower]
    congr 2
    push_cast
    omega
  · have isQuotient : (exponent * 2 ^ 52 + shifted) / 2 ^ 52 = exponent + 2 := by omega
    have isRest : (exponent * 2 ^ 52 + shifted) % 2 ^ 52 + 2 ^ 52 = 2 ^ 52 := by omega
    have isScaled : ((max (exponent + 2) 1 : ℕ) - 1075 : ℤ) = 1 + (exponent - 1074) := by
      rw [max_eq_left (by omega)]
      push_cast
      omega
    rw [isQuotient, if_neg (Nat.succ_ne_zero _), isRest, isScaled, zpow_add₀ two_ne_zero, isPower,
      isLong]
    push_cast
    ring

/-! ## Keys -/

theorem key_eq (value : F64) :
    value.key = if value.isNegative then -(value.magnitude : ℤ) else value.magnitude := by
  rw [key, isNegative]
  by_cases small : value.bits.toNat < 2 ^ 63
  · rw [if_pos small, decide_eq_false (Nat.not_le_of_lt small), if_neg Bool.false_ne_true]
  · rw [if_neg small, decide_eq_true (Nat.le_of_not_lt small), if_pos rfl]

/-- The keys are ordered as the numbers. -/
theorem key_lt_iff (left right : F64) : left.key < right.key ↔ left.toRat < right.toRat := by
  have leftNonneg := magnitudeRat_nonneg left.magnitude
  have rightNonneg := magnitudeRat_nonneg right.magnitude
  have magnitudes := @magnitudeRat_lt_iff left.magnitude right.magnitude
  have opposite := @magnitudeRat_lt_iff right.magnitude left.magnitude
  have positive (magnitude : ℕ) : 0 < magnitudeRat magnitude ↔ 0 < magnitude := by
    rw [← magnitudeRat_zero, magnitudeRat_lt_iff]
  have leftPositive := positive left.magnitude
  have rightPositive := positive right.magnitude
  rw [key_eq, key_eq, toRat, toRat, absRat_eq, absRat_eq]
  cases left.isNegative with
  | false =>
      cases right.isNegative with
      | false =>
          rw [if_neg Bool.false_ne_true, if_neg Bool.false_ne_true, if_neg Bool.false_ne_true,
            if_neg Bool.false_ne_true, magnitudes, Nat.cast_lt]
      | true =>
          rw [if_neg Bool.false_ne_true, if_pos rfl, if_neg Bool.false_ne_true, if_pos rfl]
          exact iff_of_false (by omega) (by linarith)
  | true =>
      cases right.isNegative with
      | false =>
          rw [if_pos rfl, if_neg Bool.false_ne_true, if_pos rfl, if_neg Bool.false_ne_true]
          constructor
          · intro less
            obtain isPositive | isPositive : 0 < left.magnitude ∨ 0 < right.magnitude := by omega
            · linarith [leftPositive.mpr isPositive]
            · linarith [rightPositive.mpr isPositive]
          · intro less
            obtain isPositive | isPositive :
                0 < magnitudeRat left.magnitude ∨ 0 < magnitudeRat right.magnitude := by
              by_contra neither
              rw [not_or] at neither
              linarith [neither.1, neither.2]
            · have := leftPositive.mp isPositive
              omega
            · have := rightPositive.mp isPositive
              omega
      | true =>
          rw [if_pos rfl, if_pos rfl, if_pos rfl, if_pos rfl, neg_lt_neg_iff, neg_lt_neg_iff,
            opposite, Nat.cast_lt]

theorem key_neg (value : F64) : value.neg.key = -value.key := by
  rw [key_eq, key_eq, isNegative_neg, magnitude_neg]
  cases value.isNegative with
  | false => rfl
  | true => exact (neg_neg _).symm

theorem toRat_multiple (value : F64) : ∃ count : ℤ, value.toRat = count * leastPositive := by
  obtain ⟨count, isCount⟩ := magnitudeRat_multiple value.magnitude
  rw [toRat, absRat_eq, isCount]
  cases value.isNegative with
  | false => exact ⟨count, by push_cast; rfl⟩
  | true => exact ⟨-count, by push_cast; rw [if_pos rfl, neg_mul]⟩

/-! ## Differences -/

end F64
end Cache

namespace Binary64

/-- Numbers from the least positive double on are not rounded to zero. -/
theorem one_le_nearest {number : ℚ} (large : 2 ^ (-1074 : ℤ) ≤ number) : 1 ≤ nearest number := by
  have positive : 0 < number := lt_of_lt_of_le (by positivity) large
  rw [nearest, if_neg positive.ne', Nat.le_min]
  refine ⟨by decide, ?_⟩
  obtain isLeast | isMore := (le_max_left (-1074) (Int.log 2 number - 52)).eq_or_lt
  · have isScale : scale number = -1074 := isLeast.symm
    have isWhole : 1 ≤ ⌊number / 2 ^ (-1074 : ℤ)⌋₊ := by
      rw [Nat.one_le_floor_iff, le_div_iff₀ (by positivity), one_mul]
      exact large
    rw [isScale]
    exact Nat.le_add_left_of_le (isWhole.trans (floor_le_halfEven _))
  · have isScale : -1074 < scale number := isMore
    have isSuccessor : 1 ≤ (scale number + 1074).toNat := by omega
    exact Nat.le_add_right_of_le (Nat.one_le_iff_ne_zero.mpr
      (Nat.mul_ne_zero (Nat.one_le_iff_ne_zero.mp isSuccessor) (by decide)))

end Binary64

namespace Cache
namespace F64

theorem roundRatio_le (num den : ℕ) : roundRatio num den ≤ infinityBits := by
  rw [roundRatio]
  split
  · exact Nat.zero_le _
  · exact Nat.min_le_left _ _

/-- Rounding keeps the sign of a number that is not closer to zero than any double. -/
theorem key_round_pos_iff {number : ℚ} (zeroSign : Bool)
    (multiple : ∃ count : ℤ, number = count * leastPositive) :
    0 < (round zeroSign number).key ↔ 0 < number := by
  rw [round]
  split
  · rename_i isZero
    have magnitude : (signedZero zeroSign).magnitude = 0 :=
      magnitude_ofMagnitude (Nat.two_pow_pos 63) zeroSign
    rw [key_eq, magnitude, isZero]
    refine iff_of_false ?_ (lt_irrefl 0)
    cases (signedZero zeroSign).isNegative with
    | false => exact lt_irrefl 0
    | true => exact lt_irrefl 0
  · rename_i nonzero
    have fits : roundRatio number.num.natAbs number.den < 2 ^ 63 :=
      lt_of_le_of_lt (roundRatio_le _ _) infinityBits_lt
    rw [key_eq, isNegative_ofMagnitude fits, magnitude_ofMagnitude fits]
    by_cases isNegative : number < 0
    · rw [decide_eq_true isNegative, if_pos rfl]
      exact iff_of_false (by omega) (not_lt.mpr isNegative.le)
    · have isPositive : 0 < number := lt_of_le_of_ne (not_lt.mp isNegative) (Ne.symm nonzero)
      have numerator : 0 < number.num := Rat.num_pos.mpr isPositive
      have value : ((number.num.natAbs : ℚ) / number.den) = number := by
        have isNumerator : ((number.num.natAbs : ℤ) : ℚ) = number.num := by
          rw [Int.natAbs_of_nonneg numerator.le]
        rw [← Int.cast_natCast, isNumerator, Rat.num_div_den]
      obtain ⟨count, isCount⟩ := multiple
      have least : 0 < leastPositive := by
        rw [leastPositive]
        positivity
      have isOne : 1 ≤ count := by
        rw [isCount] at isPositive
        have := pos_of_mul_pos_left isPositive least.le
        exact_mod_cast this
      have large : 2 ^ (-1074 : ℤ) ≤ number := by
        have : (1 : ℚ) ≤ count := by exact_mod_cast isOne
        rw [isCount]
        calc (2 : ℚ) ^ (-1074 : ℤ) = 1 * leastPositive := (one_mul _).symm
          _ ≤ count * leastPositive := mul_le_mul_of_nonneg_right this least.le
      have rounded := Binary64.one_le_nearest large
      rw [decide_eq_false isNegative, if_neg Bool.false_ne_true,
        roundRatio_eq (Int.natAbs_pos.mpr numerator.ne') number.den_pos, value]
      exact iff_of_true (by omega) isPositive

theorem partialCmp_gt_iff (left right : F64) :
    left.partialCmp right = some .gt ↔
      left.isNan = false ∧ right.isNan = false ∧ right.key < left.key := by
  rw [partialCmp]
  cases left.isNan with
  | true => simp
  | false =>
      cases right.isNan with
      | true => simp
      | false =>
          rw [if_neg (by decide), Option.some_inj, compare_gt_iff_gt]
          simp

theorem isNan_round (zeroSign : Bool) (number : ℚ) : (round zeroSign number).isNan = false := by
  rw [round]
  split
  · rw [isNan, signedZero, magnitude_ofMagnitude (Nat.two_pow_pos 63)]
    rfl
  · have fits := lt_of_le_of_lt (roundRatio_le number.num.natAbs number.den) infinityBits_lt
    rw [isNan, magnitude_ofMagnitude fits]
    exact decide_eq_false (Nat.not_lt_of_le (roundRatio_le _ _))

theorem isFinite_magnitude {value : F64} (notNan : value.isNan = false)
    (finite : value.isInfinite = false) : value.magnitude < infinityBits := by
  rw [isNan, decide_eq_false_iff_not] at notNan
  rw [isInfinite, decide_eq_false_iff_not] at finite
  omega

/-- A difference is positive exactly if the first number is greater. -/
theorem sub_gt_zero_iff {left right : F64} (leftNumber : left.isNan = false)
    (rightNumber : right.isNan = false) :
    (left.sub right).partialCmp zero = some .gt ↔ left.partialCmp right = some .gt := by
  have zeroKey : zero.key = 0 := rfl
  have zeroNumber : zero.isNan = false := rfl
  rw [partialCmp_gt_iff, partialCmp_gt_iff, zeroKey, sub, add, isNan_neg, leftNumber, rightNumber,
    Bool.false_or, if_neg Bool.false_ne_true]
  simp only [zeroNumber, true_and]
  cases leftInfinite : left.isInfinite with
  | true =>
      rw [if_pos rfl]
      have leftMagnitude : left.magnitude = infinityBits := of_decide_eq_true leftInfinite
      rw [isInfinite_neg, isNegative_neg]
      have leftKey := key_eq left
      have rightKey := key_eq right
      rw [leftMagnitude] at leftKey
      have infinityPositive : 0 < infinityBits := by decide
      cases rightInfinite : right.isInfinite with
      | true =>
          have rightMagnitude : right.magnitude = infinityBits := of_decide_eq_true rightInfinite
          rw [rightMagnitude] at rightKey
          cases leftSign : left.isNegative with
          | true =>
              rw [leftSign, if_pos rfl] at leftKey
              cases rightSign : right.isNegative with
              | true =>
                  rw [rightSign, if_pos rfl] at rightKey
                  rw [if_pos (by decide)]
                  exact iff_of_false (fun both => absurd both.1 (by decide)) (by omega)
              | false =>
                  rw [rightSign, if_neg Bool.false_ne_true] at rightKey
                  rw [if_neg (by decide)]
                  exact iff_of_false (fun both => by omega) (by omega)
          | false =>
              rw [leftSign, if_neg Bool.false_ne_true] at leftKey
              cases rightSign : right.isNegative with
              | true =>
                  rw [rightSign, if_pos rfl] at rightKey
                  rw [if_neg (by decide)]
                  exact iff_of_true ⟨leftNumber, by omega⟩ (by omega)
              | false =>
                  rw [rightSign, if_neg Bool.false_ne_true] at rightKey
                  rw [if_pos (by decide)]
                  exact iff_of_false (fun both => absurd both.1 (by decide)) (by omega)
      | false =>
          have rightMagnitude := isFinite_magnitude rightNumber rightInfinite
          rw [Bool.false_and, if_neg Bool.false_ne_true]
          cases leftSign : left.isNegative with
          | true =>
              rw [leftSign, if_pos rfl] at leftKey
              refine iff_of_false (fun both => by omega) ?_
              split at rightKey <;> omega
          | false =>
              rw [leftSign, if_neg Bool.false_ne_true] at leftKey
              refine iff_of_true ⟨leftNumber, by omega⟩ ?_
              split at rightKey <;> omega
  | false =>
      have leftMagnitude := isFinite_magnitude leftNumber leftInfinite
      rw [if_neg Bool.false_ne_true, isInfinite_neg]
      have leftKey := key_eq left
      cases rightInfinite : right.isInfinite with
      | true =>
          have rightMagnitude : right.magnitude = infinityBits := of_decide_eq_true rightInfinite
          have rightKey := key_eq right
          rw [rightMagnitude] at rightKey
          rw [if_pos rfl, isNan_neg, key_neg]
          have infinityPositive : 0 < infinityBits := by decide
          refine ⟨fun both => ?_, fun less => ⟨rightNumber, ?_⟩⟩
          · split at rightKey <;> split at leftKey <;> omega
          · split at rightKey <;> split at leftKey <;> omega
      | false =>
          rw [if_neg Bool.false_ne_true, toRat_neg, ← sub_eq_add_neg, isNan_round]
          have multiple : ∃ count : ℤ, left.toRat - right.toRat = count * leastPositive := by
            obtain ⟨leftCount, isLeft⟩ := left.toRat_multiple
            obtain ⟨rightCount, isRight⟩ := right.toRat_multiple
            exact ⟨leftCount - rightCount, by rw [isLeft, isRight]; push_cast; ring⟩
          rw [key_round_pos_iff _ multiple, sub_pos, key_lt_iff]
          exact and_iff_right rfl

end F64
end Cache
end MuonJs
