import MuonJs.Script.Conversions

/-!
# Numeric literals

The texts that ECMAScript 5 reads as numbers, with their values: nothing, a decimal
literal with an optional sign, `Infinity` with an optional sign, and an integer after
a prefix that names its radix.  White space around them is left out.

`js_to_number` reads the same texts with the same values, apart from four kinds: a
zero with a minus sign on the fast path, the names that `f64::from_str` has for
infinity, a plus sign after a prefix, and integers from `2 ^ 64` on after a prefix;
and `str::trim` leaves out other white space.
-/

namespace MuonJs
namespace Script

open Cache (Bytes F64 asBytes fromUtf8 digitsValue digitsFrom isAsciiDigit parseF64 toU64)

/-! ## Literals -/

/-- The number that digits denote. -/
def digitsNumber (digits : Bytes) : ℕ :=
  digits.foldl (fun value digit => value * 10 + (digit.toNat - 48)) 0

/-- The exponent that a mark and digits denote. -/
def exponentNumber (mark digits : Bytes) : ℤ :=
  if 45 ∈ mark then -digitsNumber digits else digitsNumber digits

namespace Decimal

/-- The digits after the point. -/
def fractionBytes (literal : Decimal) : Bytes := literal.fraction.getD []

/-- The exponent that is written. -/
def written (literal : Decimal) : ℤ :=
  literal.exponent.elim 0 fun exponent => exponentNumber exponent.1 exponent.2

/-- The mathematical value of a decimal literal. -/
def value (literal : Decimal) : ℚ :=
  digitsNumber (literal.whole ++ literal.fractionBytes) *
    10 ^ (literal.written - literal.fractionBytes.length)

end Decimal

/-- A radix with a prefix of its own. -/
inductive Radix
  | hex | octal | binary

namespace Radix

/-- The number of digits. -/
def base : Radix → ℕ
  | .hex => 16
  | .octal => 8
  | .binary => 2

/-- The prefixes, with a small and a capital letter. -/
def marks : Radix → List Bytes
  | .hex => [asBytes "0x", asBytes "0X"]
  | .octal => [asBytes "0o", asBytes "0O"]
  | .binary => [asBytes "0b", asBytes "0B"]

end Radix

/-- The text of a sign; there may be none. -/
def signBytes : Option Bool → Bytes
  | none => []
  | some negative => if negative then [45] else [43]

/-- A numeric literal in a string. -/
inductive NumericLiteral
  | empty
  | decimal (sign : Option Bool) (literal : Decimal)
  | infinity (sign : Option Bool)
  | integer (radix : Radix) (mark digits : Bytes) (value : ℕ) (isMark : mark ∈ radix.marks)
      (notEmpty : digits ≠ []) (isValue : radixValueFrom radix.base 0 digits = some value)

namespace NumericLiteral

/-- The text of a literal. -/
def bytes : NumericLiteral → Bytes
  | .empty => []
  | .decimal sign literal => signBytes sign ++ literal.bytes
  | .infinity sign => signBytes sign ++ asBytes "Infinity"
  | .integer _ mark digits .. => mark ++ digits

/-- The number that a literal denotes: the double nearest to its value, and a zero
with the sign of the literal. -/
def number : NumericLiteral → F64
  | .empty => .zero
  | .decimal sign literal =>
      let negative := sign.getD false
      .round negative (if negative then -literal.value else literal.value)
  | .infinity sign => .infinity (sign.getD false)
  | .integer _ _ _ value .. => .round false value

end NumericLiteral

/-! ## White space -/

/-- The white space and the line ends of ECMAScript: a byte order mark counts, and
the next-line character does not. -/
def esWhiteSpaces : List Bytes :=
  [0xEF, 0xBB, 0xBF] :: whiteSpaces.filter fun space => space ≠ [0xC2, 0x85]

/-- A text without white space around it. -/
def esTrim (text : Bytes) : Bytes :=
  (dropPatterns (esWhiteSpaces.map List.reverse) 0
    (dropPatterns esWhiteSpaces 0 text).reverse).reverse

/-- A visible ASCII character. -/
def isGraphic (byte : UInt8) : Bool := 33 ≤ byte && byte ≤ 126

/-- The patterns consist of bytes that are not visible. -/
def AreBlank (patterns : List Bytes) : Prop :=
  ∀ pattern ∈ patterns, pattern ≠ [] ∧ ∀ byte ∈ pattern, isGraphic byte = false

theorem filter_dropPatterns
    {patterns : List Bytes} (blank : AreBlank patterns)
    {skip : ℕ} {text : Bytes} (skipped : ∀ byte ∈ text.take skip, isGraphic byte = false) :
    (dropPatterns patterns skip text).filter isGraphic = text.filter isGraphic := by
  induction text generalizing skip with
  | nil => cases skip <;> rfl
  | cons byte rest ih =>
      cases skip with
      | succ skip =>
          rw [List.take_succ_cons, List.forall_mem_cons] at skipped
          rw [dropPatterns, ih skipped.2, List.filter_cons_of_neg (by rw [skipped.1]; decide)]
      | zero =>
          unfold dropPatterns
          split
          · rfl
          · rename_i pattern isFound
            obtain ⟨nonempty, isBlank⟩ := blank pattern (List.mem_of_find?_eq_some isFound)
            have isPrefix := List.find?_some isFound
            rw [List.isPrefixOf_iff_prefix] at isPrefix
            cases pattern with
            | nil => exact absurd rfl nonempty
            | cons first others =>
                obtain ⟨rfl, isRest⟩ := List.cons_prefix_cons.mp isPrefix
                rw [List.forall_mem_cons] at isBlank
                have isTaken : rest.take others.length = others :=
                  (List.prefix_iff_eq_take.mp isRest).symm
                rw [List.length_cons, Nat.add_sub_cancel, ih (by rw [isTaken]; exact isBlank.2),
                  List.filter_cons_of_neg (by rw [isBlank.1]; decide)]

theorem AreBlank.reverse {patterns : List Bytes} (blank : AreBlank patterns) :
    AreBlank (patterns.map List.reverse) := by
  intro pattern isPattern
  obtain ⟨original, isOriginal, rfl⟩ := List.mem_map.mp isPattern
  obtain ⟨nonempty, isBlank⟩ := blank original isOriginal
  refine ⟨fun isEmpty => nonempty (List.reverse_eq_nil_iff.mp isEmpty), fun byte isByte => ?_⟩
  exact isBlank byte (List.mem_reverse.mp isByte)

/-- Leaving out white space on both sides leaves out nothing that is visible. -/
theorem filter_dropPatterns_reverse
    {patterns : List Bytes} (blank : AreBlank patterns) (text : Bytes) :
    ((dropPatterns (patterns.map List.reverse) 0
        (dropPatterns patterns 0 text).reverse).reverse).filter isGraphic =
      text.filter isGraphic := by
  have blankReverse := blank.reverse
  have nothing : ∀ text : Bytes, ∀ byte ∈ text.take 0, isGraphic byte = false :=
    fun text byte isByte => by rw [List.take_zero] at isByte; exact absurd isByte List.not_mem_nil
  rw [List.filter_reverse, filter_dropPatterns blankReverse (nothing _), List.filter_reverse,
    List.reverse_reverse, filter_dropPatterns blank (nothing _)]

theorem areBlank_whiteSpaces : AreBlank whiteSpaces := by
  unfold AreBlank
  exact List.forall_iff_forall_mem.mp (by simp [whiteSpaces, isGraphic])

theorem areBlank_esWhiteSpaces : AreBlank esWhiteSpaces := by
  refine List.forall_mem_cons.mpr ⟨by simp [isGraphic], fun pattern isPattern => ?_⟩
  exact areBlank_whiteSpaces pattern (List.mem_of_mem_filter isPattern)

/-- Visible texts that are left by both ways to trim are the same. -/
theorem trim_eq_esTrim
    {text : Bytes} (visible : ∀ byte ∈ trim text, isGraphic byte = true)
    (esVisible : ∀ byte ∈ esTrim text, isGraphic byte = true) : trim text = esTrim text := by
  rw [← List.filter_eq_self.mpr visible, ← List.filter_eq_self.mpr esVisible]
  exact (filter_dropPatterns_reverse areBlank_whiteSpaces text).trans
    (filter_dropPatterns_reverse areBlank_esWhiteSpaces text).symm

/-! ## Decimal literals -/

theorem digitsFrom_eq {digits : Bytes} (areDigits : digits.all isAsciiDigit = true)
    (value : ℕ) :
    digitsFrom value digits =
      some (digits.foldl (fun value digit => value * 10 + (digit.toNat - 48)) value) := by
  induction digits generalizing value with
  | nil => rfl
  | cons digit digits ih =>
      rw [List.all_cons, Bool.and_eq_true] at areDigits
      rw [digitsFrom, if_pos areDigits.1, ih areDigits.2, List.foldl_cons]

theorem digitsValue_eq {digits : Bytes} (areDigits : digits.all isAsciiDigit = true)
    (notEmpty : digits ≠ []) : digitsValue digits = some (digitsNumber digits) := by
  rw [digitsValue]
  · exact digitsFrom_eq areDigits 0
  · exact notEmpty

/-- Only digits have a value. -/
theorem all_isAsciiDigit_of_digitsFrom {value total : ℕ} {digits : Bytes}
    (isTotal : digitsFrom value digits = some total) : digits.all isAsciiDigit = true := by
  induction digits generalizing value with
  | nil => rfl
  | cons digit digits ih =>
      obtain ⟨isDigit, isRest⟩ := Cache.isAsciiDigit_of_digitsFrom isTotal
      rw [List.all_cons, isDigit, ih isRest]
      rfl

theorem of_digitsValue {value : ℕ} {digits : Bytes} (isValue : digitsValue digits = some value) :
    digits ≠ [] ∧ digits.all isAsciiDigit = true ∧ digitsNumber digits = value := by
  cases digits with
  | nil => cases isValue
  | cons digit digits =>
      have areDigits := all_isAsciiDigit_of_digitsFrom (show digitsFrom 0 _ = _ from isValue)
      have isNumber := digitsFrom_eq areDigits 0
      rw [show digitsFrom 0 _ = _ from isValue] at isNumber
      exact ⟨List.cons_ne_nil _ _, areDigits, (Option.some.inj isNumber).symm⟩

/-- The number of digits bounds a number. -/
theorem pow_length_toDigits {digits : ℕ} (positive : 0 < digits) :
    10 ^ ((Nat.toDigits 10 digits).length - 1) ≤ digits ∧
      digits < 10 ^ (Nat.toDigits 10 digits).length := by
  have nonempty := @Nat.length_toDigits_pos 10 digits
  refine ⟨?_, (Nat.length_toDigits_le_iff (by decide) nonempty).mp (le_refl _)⟩
  by_cases isSingle : (Nat.toDigits 10 digits).length - 1 = 0
  · rw [isSingle]
    exact positive
  · by_contra less
    have short := (Nat.length_toDigits_le_iff (by decide) (Nat.pos_of_ne_zero isSingle)).mpr
      (not_le.mp less)
    omega

theorem overflow_le_ten_pow {exponent : ℤ} (large : 400 ≤ exponent) :
    Binary64.overflow ≤ 10 ^ exponent := by
  calc Binary64.overflow ≤ 2 ^ (1024 : ℤ) := Binary64.overflow_lt_two_pow.le
    _ ≤ 2 ^ (3 * 400 : ℤ) := zpow_le_zpow_right₀ one_le_two (by norm_num)
    _ = 8 ^ (400 : ℤ) := by rw [zpow_mul]; norm_num
    _ ≤ 10 ^ (400 : ℤ) := zpow_le_zpow_left₀ (by norm_num) (by norm_num) (by norm_num)
    _ ≤ 10 ^ exponent := zpow_le_zpow_right₀ (by norm_num) large

theorem ten_pow_lt {exponent : ℤ} (small : exponent ≤ -400) :
    (10 : ℚ) ^ exponent < 2 ^ (-1075 : ℤ) := by
  calc (10 : ℚ) ^ exponent ≤ 10 ^ (-400 : ℤ) := zpow_le_zpow_right₀ (by norm_num) small
    _ ≤ 8 ^ (-400 : ℤ) := by
        rw [zpow_neg, zpow_neg]
        exact inv_anti₀ (by positivity) (zpow_le_zpow_left₀ (by norm_num) (by norm_num) (by norm_num))
    _ = 2 ^ (3 * -400 : ℤ) := by rw [zpow_mul]; norm_num
    _ < 2 ^ (-1075 : ℤ) := zpow_lt_zpow_right₀ one_lt_two (by norm_num)

/-- Digits times a power of ten, rounded. -/
theorem roundDecimal_eq (digits : ℕ) (exponent : ℤ) :
    F64.roundDecimal digits (Nat.toDigits 10 digits).length exponent =
      Binary64.nearest (digits * 10 ^ exponent) := by
  by_cases isZero : digits = 0
  · rw [F64.roundDecimal, if_pos isZero, isZero, Nat.cast_zero, zero_mul]
    rfl
  have positive : 0 < digits := Nat.pos_of_ne_zero isZero
  obtain ⟨low, high⟩ := pow_length_toDigits positive
  have nonempty := @Nat.length_toDigits_pos 10 digits
  rw [F64.roundDecimal, if_neg isZero]
  generalize (Nat.toDigits 10 digits).length = count at *
  have lowQ : (10 : ℚ) ^ (count - 1 : ℤ) ≤ digits := by
    have isCount : (count - 1 : ℤ) = (count - 1 : ℕ) := by omega
    rw [isCount, zpow_natCast]
    exact_mod_cast low
  have highQ : (digits : ℚ) < 10 ^ (count : ℤ) := by
    exact_mod_cast high
  split
  case isTrue large =>
    refine (Binary64.nearest_eq_infinityBits ?_).symm
    calc Binary64.overflow ≤ 10 ^ (exponent + count - 1) := overflow_le_ten_pow (by omega)
      _ = 10 ^ (count - 1 : ℤ) * 10 ^ exponent := by
          rw [← zpow_add₀ (by norm_num)]
          congr 1
          ring
      _ ≤ digits * 10 ^ exponent := mul_le_mul_of_nonneg_right lowQ (by positivity)
  case isFalse notLarge =>
    split
    case isTrue small =>
      refine (Binary64.nearest_eq_zero (by positivity) ?_).symm
      calc (digits : ℚ) * 10 ^ exponent < 10 ^ (count : ℤ) * 10 ^ exponent :=
            mul_lt_mul_of_pos_right highQ (by positivity)
        _ = 10 ^ (exponent + count) := by rw [← zpow_add₀ (by norm_num), add_comm]
        _ < 2 ^ (-1075 : ℤ) := ten_pow_lt (by omega)
    case isFalse notSmall =>
      split
      case isTrue nonneg =>
        obtain ⟨power, rfl⟩ := Int.eq_ofNat_of_zero_le nonneg
        rw [Int.toNat_natCast, F64.roundRatio_eq (Nat.mul_pos positive (by positivity))
          Nat.one_pos, zpow_natCast, Nat.cast_one, div_one]
        push_cast
        rfl
      case isFalse negative =>
        obtain ⟨power, isPower⟩ :=
          Int.eq_ofNat_of_zero_le (neg_nonneg.mpr (not_le.mp negative).le)
        obtain rfl : exponent = -power := by omega
        rw [neg_neg, Int.toNat_natCast, F64.roundRatio_eq positive (by positivity), zpow_neg,
          zpow_natCast, div_eq_mul_inv]
        push_cast
        rfl

/-- A number that is not zero keeps its sign when it is rounded. -/
theorem round_eq (negative : Bool) {number : ℚ} (nonneg : 0 ≤ number) :
    F64.round negative (if negative then -number else number) =
      F64.ofMagnitude negative (Binary64.nearest number) := by
  by_cases isZero : number = 0
  · rw [isZero, neg_zero, ite_self, F64.round_zero]
    rfl
  have positive : 0 < number := lt_of_le_of_ne nonneg (Ne.symm isZero)
  have isRatio : (number.num.natAbs : ℚ) / number.den = number := by
    have isAbs : (number.num.natAbs : ℤ) = number.num :=
      Int.natAbs_of_nonneg (Rat.num_nonneg.mpr nonneg)
    rw [← Int.cast_natCast, isAbs, Rat.num_div_den]
  have isRound : F64.roundRatio number.num.natAbs number.den = Binary64.nearest number := by
    rw [F64.roundRatio_eq (Int.natAbs_pos.mpr (Rat.num_ne_zero.mpr isZero)) number.den_pos,
      isRatio]
  cases negative with
  | true =>
      rw [if_pos rfl, F64.round, if_neg (neg_ne_zero.mpr isZero), Rat.neg_num, Int.natAbs_neg,
        Rat.neg_den, isRound, decide_eq_true (neg_lt_zero.mpr positive)]
  | false =>
      rw [if_neg Bool.false_ne_true, F64.round, if_neg isZero, isRound,
        decide_eq_false (not_lt.mpr nonneg)]

namespace Decimal

/-- The exponent as it is written after the mantissa. -/
def exponentBytes (literal : Decimal) : Bytes :=
  literal.exponent.elim [] fun (mark, digits) => mark ++ digits

theorem value_nonneg (literal : Decimal) : 0 ≤ literal.value := by
  unfold value
  positivity

theorem parseExponent_unsigned
    {mark : UInt8} {digits : Bytes} (isMark : mark = 101 ∨ mark = 69) (notEmpty : digits ≠ [])
    (areDigits : digits.all isAsciiDigit = true) :
    F64.parseExponent (mark :: digits) = some (digitsNumber digits : ℤ) := by
  unfold F64.parseExponent
  dsimp only
  rw [if_pos isMark]
  split
  · cases (Bool.and_eq_true _ _ ▸ areDigits : _ ∧ _).1
  · cases (Bool.and_eq_true _ _ ▸ areDigits : _ ∧ _).1
  · rw [digitsValue_eq areDigits notEmpty]
    rfl

theorem parseExponent_signed
    {mark : UInt8} {digits : Bytes} (isMark : mark = 101 ∨ mark = 69) (notEmpty : digits ≠ [])
    (areDigits : digits.all isAsciiDigit = true) :
    F64.parseExponent (mark :: 43 :: digits) = some (digitsNumber digits : ℤ) ∧
      F64.parseExponent (mark :: 45 :: digits) = some (-(digitsNumber digits : ℤ)) := by
  unfold F64.parseExponent
  simp [isMark, digitsValue_eq areDigits notEmpty]

theorem parseExponent_exponentBytes (literal : Decimal) :
    F64.parseExponent literal.exponentBytes = some literal.written := by
  unfold exponentBytes written
  cases isExponent : literal.exponent with
  | none => rfl
  | some pair =>
      obtain ⟨mark, digits⟩ := pair
      obtain ⟨isMark, notEmpty, areDigits⟩ := literal.exponentDigits mark digits isExponent
      simp only [exponentMarks, List.mem_cons, List.not_mem_nil, or_false] at isMark
      rcases isMark with rfl | rfl | rfl | rfl | rfl | rfl
      · exact parseExponent_unsigned (.inl rfl) notEmpty areDigits
      · exact parseExponent_unsigned (.inr rfl) notEmpty areDigits
      · exact (parseExponent_signed (.inl rfl) notEmpty areDigits).1
      · exact (parseExponent_signed (.inl rfl) notEmpty areDigits).2
      · exact (parseExponent_signed (.inr rfl) notEmpty areDigits).1
      · exact (parseExponent_signed (.inr rfl) notEmpty areDigits).2

theorem bytes_eq (literal : Decimal) :
    literal.bytes =
      literal.whole ++ ((literal.fraction.elim [] fun digits => 46 :: digits) ++
        literal.exponentBytes) := by
  rw [bytes, List.append_assoc]
  rfl

/-- An exponent is not mistaken for digits or for a point. -/
theorem head_exponentBytes (literal : Decimal) {byte : UInt8}
    (isHead : literal.exponentBytes.head? = some byte) :
    isAsciiDigit byte = false ∧ byte ≠ 46 := by
  unfold exponentBytes at isHead
  cases isExponent : literal.exponent with
  | none =>
      rw [isExponent] at isHead
      cases isHead
  | some pair =>
      obtain ⟨mark, digits⟩ := pair
      rw [isExponent] at isHead
      have isMark := (literal.exponentDigits mark digits isExponent).1
      simp only [exponentMarks, List.mem_cons, List.not_mem_nil, or_false] at isMark
      rcases isMark with rfl | rfl | rfl | rfl | rfl | rfl <;> cases isHead <;> decide

/-- The digits of a literal. -/
theorem digits_ne_nil (literal : Decimal) : literal.whole ++ literal.fractionBytes ≠ [] := by
  obtain notNil | ⟨digits, isFraction, notNil⟩ := literal.notEmpty
  · exact List.append_ne_nil_of_left_ne_nil notNil _
  · rw [fractionBytes, isFraction]
    exact List.append_ne_nil_of_right_ne_nil _ notNil

theorem all_digits (literal : Decimal) :
    (literal.whole ++ literal.fractionBytes).all isAsciiDigit = true := by
  rw [List.all_append, literal.wholeDigits, Bool.true_and, fractionBytes]
  cases isFraction : literal.fraction with
  | none => rfl
  | some digits => exact literal.fractionDigits digits isFraction

/-- The value of digits that have been split off. -/
theorem bind_digitsValue (literal : Decimal) :
    ((digitsValue (literal.whole ++ literal.fractionBytes)).bind fun value =>
        (F64.parseExponent literal.exponentBytes).map fun exponent =>
          F64.roundDecimal value (Nat.toDigits 10 value).length
            (exponent - literal.fractionBytes.length)) =
      some (Binary64.nearest literal.value) := by
  rw [digitsValue_eq literal.all_digits literal.digits_ne_nil,
    literal.parseExponent_exponentBytes, Option.bind_some, Option.map_some, roundDecimal_eq]
  rfl

/-- A decimal literal is read with its value. -/
theorem parseNumber_bytes (literal : Decimal) :
    F64.parseNumber literal.bytes = some (Binary64.nearest literal.value) := by
  have notDigit : ∀ byte, literal.exponentBytes.head? = some byte → isAsciiDigit byte = false :=
    fun byte isHead => (literal.head_exponentBytes isHead).1
  have isNumber := literal.bind_digitsValue
  rw [bytes_eq]
  unfold F64.parseNumber
  cases isFraction : literal.fraction with
  | none =>
      have isWhole : F64.spanDigits (literal.whole ++ literal.exponentBytes) =
          (literal.whole, literal.exponentBytes) :=
        Json.span_digits (List.all_eq_true.mp literal.wholeDigits) notDigit
      rw [fractionBytes, isFraction] at isNumber
      rw [Option.elim_none, List.nil_append, isWhole]
      dsimp only
      split
      · rename_i isPoint
        exact absurd rfl (literal.head_exponentBytes (congrArg List.head? isPoint)).2
      · exact isNumber
  | some digits =>
      have isPoint : ∀ byte, (46 :: (digits ++ literal.exponentBytes)).head? = some byte →
          isAsciiDigit byte = false := by
        intro byte isHead
        cases isHead
        decide
      have isWhole : F64.spanDigits (literal.whole ++ 46 :: (digits ++ literal.exponentBytes)) =
          (literal.whole, 46 :: (digits ++ literal.exponentBytes)) :=
        Json.span_digits (List.all_eq_true.mp literal.wholeDigits) isPoint
      have isRest : F64.spanDigits (digits ++ literal.exponentBytes) =
          (digits, literal.exponentBytes) :=
        Json.span_digits (List.all_eq_true.mp (literal.fractionDigits digits isFraction)) notDigit
      rw [fractionBytes, isFraction] at isNumber
      rw [Option.elim_some, List.cons_append, isWhole]
      simp only [isRest]
      exact isNumber

end Decimal

/-! ## What the code reads -/

/-- A text that starts with no sign is read without one. -/
theorem parseF64_unsigned {text : Bytes} (notSign : text.head? ≠ some 45 ∧ text.head? ≠ some 43) :
    parseF64 text = (F64.parseMagnitude text).map (F64.ofMagnitude false) := by
  unfold parseF64
  split
  · exact absurd rfl notSign.1
  · exact absurd rfl notSign.2
  · rfl

theorem Decimal.head_ne (literal : Decimal) (byte : UInt8) (notDigit : isAsciiDigit byte = false)
    (notPoint : byte ≠ 46) : literal.bytes.head? ≠ some byte := by
  obtain ⟨first, rest, isText, isFirst⟩ := literal.exists_cons
  rw [isText]
  rintro isHead
  cases isHead
  obtain isDigit | isPoint := isFirst
  · rw [notDigit] at isDigit
    cases isDigit
  · exact notPoint isPoint

/-- A decimal literal with a sign is read as its number. -/
theorem parseF64_decimal (sign : Option Bool) (literal : Decimal) :
    parseF64 (signBytes sign ++ literal.bytes) =
      some (NumericLiteral.decimal sign literal).number := by
  have isNumber : F64.parseMagnitude literal.bytes = some (Binary64.nearest literal.value) := by
    rw [F64.parseMagnitude, literal.parseNumber_bytes]
  have isRound (negative : Bool) :
      (F64.parseMagnitude literal.bytes).map (F64.ofMagnitude negative) =
        some (F64.round negative (if negative then -literal.value else literal.value)) := by
    rw [isNumber, Option.map_some, round_eq negative literal.value_nonneg]
  cases sign with
  | none =>
      refine (parseF64_unsigned ⟨?_, ?_⟩).trans (isRound false)
      · exact literal.head_ne 45 (by decide) (by decide)
      · exact literal.head_ne 43 (by decide) (by decide)
  | some negative =>
      cases negative with
      | true => exact isRound true
      | false => exact isRound false

/-- Digits, and what a text has after them. -/
theorem spanDigits_eq (text : Bytes) :
    text = (F64.spanDigits text).1 ++ (F64.spanDigits text).2 ∧
      (F64.spanDigits text).1.all isAsciiDigit = true := by
  rw [F64.spanDigits, List.span_eq_takeWhile_dropWhile]
  exact ⟨List.takeWhile_append_dropWhile.symm, List.all_takeWhile⟩

/-- The exponents of literals. -/
def IsExponent (written : Option (Bytes × Bytes)) : Prop :=
  ∀ mark digits, written = some (mark, digits) →
    mark ∈ exponentMarks ∧ digits ≠ [] ∧ digits.all isAsciiDigit = true

theorem isExponent_some {mark digits : Bytes} {value : ℕ} (isMark : mark ∈ exponentMarks)
    (isValue : digitsValue digits = some value) : IsExponent (some (mark, digits)) := by
  intro mark' digits' same
  cases same
  obtain ⟨notEmpty, areDigits, -⟩ := of_digitsValue isValue
  exact ⟨isMark, notEmpty, areDigits⟩

/-- An exponent that is read is one of a literal. -/
theorem exists_exponent {text : Bytes} {exponent : ℤ}
    (isExponent : F64.parseExponent text = some exponent) :
    ∃ written, IsExponent written ∧ text = written.elim [] fun (mark, digits) => mark ++ digits := by
  cases text with
  | nil => exact ⟨none, fun _ _ same => (by cases same), rfl⟩
  | cons marker rest =>
      unfold F64.parseExponent at isExponent
      dsimp only at isExponent
      split at isExponent
      case isFalse => cases isExponent
      case isTrue isMark =>
        have marks : [marker] ∈ exponentMarks ∧ [marker, 43] ∈ exponentMarks ∧
            [marker, 45] ∈ exponentMarks := by
          rcases isMark with rfl | rfl <;> decide
        have ofDigits {mark digits : Bytes} (isMark : mark ∈ exponentMarks)
            (hasValue : digitsValue digits ≠ none) : IsExponent (some (mark, digits)) := by
          obtain ⟨value, isValue⟩ := Option.ne_none_iff_exists'.mp hasValue
          exact isExponent_some isMark isValue
        split at isExponent
        · rename_i digits
          refine ⟨some ([marker, 45], digits), ofDigits marks.2.2 fun isNone => ?_, rfl⟩
          rw [isNone] at isExponent
          cases isExponent
        · rename_i digits
          refine ⟨some ([marker, 43], digits), ofDigits marks.2.1 fun isNone => ?_, rfl⟩
          rw [isNone] at isExponent
          cases isExponent
        · refine ⟨some ([marker], rest), ofDigits marks.1 fun isNone => ?_, rfl⟩
          rw [isNone] at isExponent
          cases isExponent

/-- Digits and an exponent that are read are those of a literal. -/
theorem of_bind_digitsValue {digits rest : Bytes} {result : ℕ → ℤ → ℕ} {magnitude : ℕ}
    (isNumber : ((digitsValue digits).bind fun value =>
      (F64.parseExponent rest).map fun exponent => result value exponent) = some magnitude) :
    digits ≠ [] ∧
      ∃ written, IsExponent written ∧
        rest = written.elim [] fun (mark, digits) => mark ++ digits := by
  obtain ⟨value, isValue, isNumber⟩ := Option.bind_eq_some_iff.mp isNumber
  obtain ⟨exponent, isExponent, -⟩ := Option.map_eq_some_iff.mp isNumber
  exact ⟨(of_digitsValue isValue).1, exists_exponent isExponent⟩

/-- A text that is read as a number is a decimal literal. -/
theorem exists_decimal {text : Bytes} {magnitude : ℕ}
    (isNumber : F64.parseNumber text = some magnitude) :
    ∃ literal : Decimal, text = literal.bytes := by
  obtain ⟨isText, wholeDigits⟩ := spanDigits_eq text
  unfold F64.parseNumber at isNumber
  dsimp only at isNumber
  split at isNumber
  · rename_i afterPoint isRest
    obtain ⟨isAfter, fractionDigits⟩ := spanDigits_eq afterPoint
    obtain ⟨notEmpty, written, exponentDigits, isWritten⟩ := of_bind_digitsValue isNumber
    refine ⟨⟨(F64.spanDigits text).1, some (F64.spanDigits afterPoint).1, written, wholeDigits,
      ?_, exponentDigits, ?_⟩, ?_⟩
    · rintro digits same
      cases same
      exact fractionDigits
    · rw [ne_eq, List.append_eq_nil_iff, not_and_or] at notEmpty
      exact notEmpty.imp id fun notNil => ⟨_, rfl, notNil⟩
    · rw [Decimal.bytes_eq]
      change text = _ ++ (46 :: _ ++ written.elim [] _)
      rw [← isWritten, List.cons_append, ← isAfter, ← isRest, ← isText]
  · obtain ⟨notEmpty, written, exponentDigits, isWritten⟩ := of_bind_digitsValue isNumber
    rw [List.append_nil] at notEmpty
    refine ⟨⟨(F64.spanDigits text).1, none, written, wholeDigits, fun _ same => (by cases same),
      exponentDigits, .inl notEmpty⟩, ?_⟩
    rw [Decimal.bytes_eq]
    change text = _ ++ ([] ++ written.elim [] _)
    rw [← isWritten, List.nil_append, ← isText]

end Script
end MuonJs
