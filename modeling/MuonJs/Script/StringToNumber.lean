import MuonJs.Script.NumericLiterals

/-!
# Strings as numbers

What `js_to_number` makes of a string, compared with the numeric literals.  It reads
every literal as its number except integers of more than 64 bits after a prefix, and
it reads two kinds of text that are no literals: the names of infinity that the
standard library knows, and integers with a plus sign after the prefix.  The fast path
agrees with the other one except for a zero with a minus sign.
-/

namespace MuonJs
namespace Script

open Cache (Bytes F64 asBytes fromUtf8 digitsValue isAsciiDigit parseF64 toU64 toAsciiUppercase
  toAsciiUppercaseByte)

/-- A text is a numeric literal. -/
def IsLiteral (text : Bytes) : Prop := ∃ literal : NumericLiteral, literal.bytes = text

/-- A name of infinity, in any letter case. -/
def IsInfinityName (name : Bytes) : Prop :=
  toAsciiUppercase name = asBytes "INF" ∨ toAsciiUppercase name = asBytes "INFINITY"

namespace NumericLiteral

/-- An integer after a prefix fits into 64 bits; other literals are not limited. -/
def Fits : NumericLiteral → Prop
  | .integer _ _ _ value _ _ _ => value < 2 ^ 64
  | _ => True

/-- A literal denotes an infinity: by its name, or because its value is too large. -/
def IsLarge : NumericLiteral → Prop
  | .empty => False
  | .decimal _ literal => Binary64.overflow ≤ literal.value
  | .infinity _ => True
  | .integer _ _ _ value _ _ _ => Binary64.overflow ≤ value

end NumericLiteral

/-! ## Visible texts -/

/-- All bytes are visible ASCII characters. -/
def IsVisible (text : Bytes) : Prop := ∀ byte ∈ text, isGraphic byte = true

theorem IsVisible.append {left right : Bytes} (isLeft : IsVisible left)
    (isRight : IsVisible right) : IsVisible (left ++ right) :=
  fun byte isByte => (List.mem_append.mp isByte).elim (isLeft byte) (isRight byte)

theorem isGraphic_of_isAsciiDigit {byte : UInt8} (isDigit : isAsciiDigit byte = true) :
    isGraphic byte = true := by
  simp only [isAsciiDigit, isGraphic, Bool.and_eq_true, decide_eq_true_eq,
    UInt8.le_iff_toNat_le] at isDigit ⊢
  exact ⟨le_trans (by decide) isDigit.1, isDigit.2.trans (by decide)⟩

theorem isVisible_of_all {digits : Bytes} (areDigits : digits.all isAsciiDigit = true) :
    IsVisible digits :=
  fun byte isByte => isGraphic_of_isAsciiDigit (List.all_eq_true.mp areDigits byte isByte)

theorem isVisible_of_graphic {text : Bytes} (areGraphic : text.all isGraphic = true) :
    IsVisible text :=
  List.all_eq_true.mp areGraphic

theorem isVisible_signBytes (sign : Option Bool) : IsVisible (signBytes sign) := by
  cases sign with
  | none => exact fun _ isByte => absurd isByte List.not_mem_nil
  | some negative => cases negative <;> exact isVisible_of_graphic rfl

theorem isGraphic_of_radixDigit {radix digit : ℕ} {byte : UInt8}
    (isDigit : radixDigit radix byte = some digit) : isGraphic byte = true := by
  obtain ⟨isSome, -⟩ := Option.filter_eq_some_iff.mp isDigit
  split at isSome
  case isTrue isDecimal => exact isGraphic_of_isAsciiDigit isDecimal
  case isFalse =>
    simp only [UInt8.le_iff_toNat_le] at isSome
    simp only [isGraphic, Bool.and_eq_true, decide_eq_true_eq, UInt8.le_iff_toNat_le]
    split at isSome
    case isTrue isSmall =>
      exact ⟨le_trans (by decide) isSmall.1, isSmall.2.trans (by decide)⟩
    case isFalse =>
      split at isSome
      case isTrue isCapital =>
        exact ⟨le_trans (by decide) isCapital.1, isCapital.2.trans (by decide)⟩
      case isFalse => cases isSome

theorem isVisible_of_radixValueFrom {radix value total : ℕ} {digits : Bytes}
    (isTotal : radixValueFrom radix value digits = some total) : IsVisible digits := by
  induction digits generalizing value with
  | nil => exact fun _ isByte => absurd isByte List.not_mem_nil
  | cons byte digits ih =>
      obtain ⟨digit, isDigit, isRest⟩ := Option.bind_eq_some_iff.mp isTotal
      exact List.forall_mem_cons.mpr ⟨isGraphic_of_radixDigit isDigit, ih isRest⟩

theorem Radix.isVisible_mark (radix : Radix) {mark : Bytes} (isMark : mark ∈ radix.marks) :
    IsVisible mark := by
  have allVisible : (radix.marks.all fun mark => mark.all isGraphic) = true := by
    cases radix <;> rfl
  exact isVisible_of_graphic (List.all_eq_true.mp allVisible mark isMark)

theorem Decimal.isVisible_bytes (literal : Decimal) : IsVisible literal.bytes := by
  rw [Decimal.bytes_eq]
  refine (isVisible_of_all literal.wholeDigits).append (IsVisible.append ?_ ?_)
  · cases isFraction : literal.fraction with
    | none => exact fun _ isByte => absurd isByte List.not_mem_nil
    | some digits =>
        exact List.forall_mem_cons.mpr
          ⟨by decide, isVisible_of_all (literal.fractionDigits digits isFraction)⟩
  · unfold exponentBytes
    cases isExponent : literal.exponent with
    | none => exact fun _ isByte => absurd isByte List.not_mem_nil
    | some pair =>
        obtain ⟨mark, digits⟩ := pair
        obtain ⟨isMark, -, areDigits⟩ := literal.exponentDigits mark digits isExponent
        have marksVisible : (exponentMarks.all fun mark => mark.all isGraphic) = true := rfl
        exact (isVisible_of_graphic (List.all_eq_true.mp marksVisible mark isMark)).append
          (isVisible_of_all areDigits)

/-- Literals are visible. -/
theorem IsLiteral.isVisible {text : Bytes} (isLiteral : IsLiteral text) : IsVisible text := by
  obtain ⟨literal, rfl⟩ := isLiteral
  cases literal with
  | empty => exact fun _ isByte => absurd isByte List.not_mem_nil
  | decimal sign literal => exact (isVisible_signBytes sign).append literal.isVisible_bytes
  | infinity sign =>
      exact (isVisible_signBytes sign).append (isVisible_of_graphic rfl)
  | integer radix mark digits value isMark notEmpty isValue =>
      exact (radix.isVisible_mark isMark).append (isVisible_of_radixValueFrom isValue)

/-- The letters of a text. -/
def isLetter (byte : UInt8) : Bool :=
  let upper := toAsciiUppercaseByte byte
  65 ≤ upper && upper ≤ 90

theorem isGraphic_of_isLetter : ∀ byte : UInt8, isLetter byte = true →
    isGraphic byte = true ∧ isAsciiDigit byte = false := by
  intro byte isLetter
  rw [Script.isLetter, toAsciiUppercaseByte] at isLetter
  split at isLetter
  · rename_i isLower
    simp [isGraphic, isAsciiDigit, UInt8.le_iff_toNat_le] at *
    omega
  · simp [isGraphic, isAsciiDigit, UInt8.le_iff_toNat_le] at *
    omega

theorem isLetter_of_isInfinityName {name : Bytes} (isName : IsInfinityName name) :
    ∀ byte ∈ name, isLetter byte = true := by
  intro byte isByte
  have letters : (asBytes "INF" ++ asBytes "INFINITY").all (fun byte => 65 ≤ byte && byte ≤ 90) =
      true := rfl
  have isUpper : toAsciiUppercaseByte byte ∈ toAsciiUppercase name := List.mem_map_of_mem isByte
  refine List.all_eq_true.mp letters _ (List.mem_append.mpr ?_)
  obtain isShort | isLong := isName
  · exact .inl (isShort ▸ isUpper)
  · exact .inr (isLong ▸ isUpper)

theorem isVisible_of_isInfinityName {name : Bytes} (isName : IsInfinityName name) :
    IsVisible name :=
  fun byte isByte => (isGraphic_of_isLetter byte (isLetter_of_isInfinityName isName byte isByte)).1

/-- Patterns that are not visible do not begin a visible text. -/
theorem dropPatterns_eq_self {patterns : List Bytes} (blank : AreBlank patterns) {text : Bytes}
    (visible : IsVisible text) : dropPatterns patterns 0 text = text := by
  cases text with
  | nil => rfl
  | cons byte rest =>
      have notFound :
          patterns.find? (fun pattern => pattern.isPrefixOf (byte :: rest)) = none := by
        refine List.find?_eq_none.mpr fun pattern isPattern isPrefix => ?_
        obtain ⟨nonempty, isBlank⟩ := blank pattern isPattern
        cases pattern with
        | nil => exact nonempty rfl
        | cons first others =>
            rw [List.isPrefixOf_iff_prefix] at isPrefix
            obtain ⟨rfl, -⟩ := List.cons_prefix_cons.mp isPrefix
            have notVisible := isBlank first List.mem_cons_self
            rw [visible first List.mem_cons_self] at notVisible
            cases notVisible
      rw [dropPatterns, notFound]

theorem trim_eq_self {text : Bytes} (visible : IsVisible text) : trim text = text := by
  have blankReverse := areBlank_whiteSpaces.reverse
  rw [trim, trimStart, dropPatterns_eq_self areBlank_whiteSpaces visible, trimEnd,
    dropPatterns_eq_self blankReverse fun byte isByte => visible byte (List.mem_reverse.mp isByte),
    List.reverse_reverse]

/-! ## Radix prefixes -/

namespace Radix

/-- The integer after the prefix of a radix. -/
def number : Radix → Bytes → Option F64
  | .hex => prefixedNumber 16 (asBytes "0x") (asBytes "0X")
  | .octal => prefixedNumber 8 (asBytes "0o") (asBytes "0O")
  | .binary => prefixedNumber 2 (asBytes "0b") (asBytes "0B")

variable (radix : Radix) {mark : Bytes} (rest : Bytes)

theorem number_mark (isMark : mark ∈ radix.marks) :
    radix.number (mark ++ rest) =
      (fromStrRadix radix.base rest).map fun value => F64.ofInt value.toNat := by
  cases radix <;> (rcases isMark with _ | ⟨_, _ | ⟨_, ⟨⟩⟩⟩) <;> rfl

theorem number_other (isMark : mark ∈ radix.marks) {other : Radix} (differ : other ≠ radix) :
    other.number (mark ++ rest) = none := by
  cases radix <;> cases other <;>
    first
    | exact absurd rfl differ
    | (rcases isMark with _ | ⟨_, _ | ⟨_, ⟨⟩⟩⟩) <;> rfl

/-- A number after a prefix is none without it. -/
theorem exists_mark {text : Bytes} {value : F64} (isNumber : radix.number text = some value) :
    ∃ mark ∈ radix.marks, ∃ rest, text = mark ++ rest := by
  have ofStrip {lower upper rest : Bytes}
      (isRest : ((stripPrefix lower text).orElse fun _ => stripPrefix upper text) = some rest) :
      ∃ mark ∈ [lower, upper], ∃ rest, text = mark ++ rest := by
    have ofPrefix {pre rest : Bytes} (isRest : stripPrefix pre text = some rest) :
        ∃ rest, text = pre ++ rest := by
      unfold stripPrefix at isRest
      split at isRest
      case isTrue isPrefix =>
        obtain ⟨others, isText⟩ := List.isPrefixOf_iff_prefix.mp isPrefix
        exact ⟨others, isText.symm⟩
      case isFalse => cases isRest
    cases isLower : stripPrefix lower text with
    | some others => exact ⟨lower, List.mem_cons_self, ofPrefix isLower⟩
    | none =>
        rw [isLower] at isRest
        exact ⟨upper, List.mem_cons_of_mem _ List.mem_cons_self, ofPrefix isRest⟩
  cases radix <;>
  · obtain ⟨rest, isRest, -⟩ := Option.bind_eq_some_iff.mp isNumber
    exact ofStrip isRest

theorem parseF64_mark (isMark : mark ∈ radix.marks) : parseF64 (mark ++ rest) = none := by
  have notNumber (letter : UInt8) (isLetter : letter ∈ [120, 88, 111, 79, 98, 66]) :
      parseF64 (48 :: letter :: rest) = none := by
    have notMark : isAsciiDigit letter = false ∧ letter ≠ 46 ∧ ¬(letter = 101 ∨ letter = 69) := by
      simp only [List.mem_cons, List.not_mem_nil, or_false] at isLetter
      obtain rfl | rfl | rfl | rfl | rfl | rfl := isLetter
      all_goals decide
    have isSpan : F64.spanDigits ([48] ++ letter :: rest) = ([48], letter :: rest) := by
      refine Json.span_digits (List.forall_mem_singleton.mpr rfl) ?_
      rintro byte isHead
      cases isHead
      exact notMark.1
    have notParsed : F64.parseNumber (48 :: letter :: rest) = none := by
      unfold F64.parseNumber
      rw [show F64.spanDigits (48 :: letter :: rest) = _ from isSpan]
      dsimp only
      split
      · rename_i isPoint
        cases isPoint
        exact absurd rfl notMark.2.1
      · have noExponent : F64.parseExponent (letter :: rest) = none := if_neg notMark.2.2
        rw [noExponent]
        rfl
    have isUpper : toAsciiUppercase (48 :: letter :: rest) =
        48 :: toAsciiUppercase (letter :: rest) := rfl
    have notName (name : Bytes)
        (isName : name ∈ [asBytes "INF", asBytes "INFINITY", asBytes "NAN"]) :
        48 :: toAsciiUppercase (letter :: rest) ≠ name := by
      have heads : ∀ name ∈ [asBytes "INF", asBytes "INFINITY", asBytes "NAN"],
          name.head? ≠ some 48 := by
        decide
      exact fun same => heads name isName (same ▸ rfl)
    rw [parseF64_unsigned ⟨fun isHead => (by cases isHead), fun isHead => (by cases isHead)⟩,
      F64.parseMagnitude, notParsed, isUpper]
    dsimp only
    rw [if_neg (not_or.mpr ⟨notName _ (by decide), notName _ (by decide)⟩),
      if_neg (notName _ (by decide))]
    rfl
  cases radix <;> (rcases isMark with _ | ⟨_, _ | ⟨_, ⟨⟩⟩⟩) <;> exact notNumber _ (by decide)

end Radix

/-! ## Texts without white space -/

/-- A text that is not empty is an integer after a prefix or read by `f64::from_str`;
the names of infinity and of not a number are read alike. -/
theorem trimmedNumber_eq {text : Bytes} (notEmpty : text ≠ []) :
    trimmedNumber text =
      ((Radix.hex.number text).orElse fun _ => (Radix.octal.number text).orElse fun _ =>
        (Radix.binary.number text).orElse fun _ => parseF64 text).getD .nan := by
  unfold trimmedNumber
  rw [if_neg (by rw [List.isEmpty_iff]; exact notEmpty)]
  split
  case isTrue isInfinity => rcases isInfinity with rfl | rfl <;> decide
  case isFalse =>
    split
    case isTrue isInfinity => subst isInfinity; decide
    case isFalse =>
      split
      case isTrue isNan => subst isNan; decide
      case isFalse => rfl

/-- An integer after a prefix. -/
theorem trimmedNumber_mark (radix : Radix) {mark : Bytes} (isMark : mark ∈ radix.marks)
    (rest : Bytes) :
    trimmedNumber (mark ++ rest) =
      ((fromStrRadix radix.base rest).map fun value => F64.ofInt value.toNat).getD .nan := by
  have notEmpty : mark ++ rest ≠ [] := by
    have noneEmpty : ∀ mark ∈ radix.marks, mark ≠ [] := by
      cases radix <;> decide
    exact List.append_ne_nil_of_left_ne_nil (noneEmpty mark isMark) rest
  have others (other : Radix) (differ : other ≠ radix) : other.number (mark ++ rest) = none :=
    radix.number_other rest isMark differ
  rw [trimmedNumber_eq notEmpty, radix.parseF64_mark rest isMark]
  have isNumber := radix.number_mark rest isMark
  cases radix with
  | hex =>
      rw [others .octal (by rintro ⟨⟩), others .binary (by rintro ⟨⟩), isNumber]
      cases fromStrRadix Radix.hex.base rest <;> rfl
  | octal =>
      rw [others .hex (by rintro ⟨⟩), others .binary (by rintro ⟨⟩), isNumber]
      cases fromStrRadix Radix.octal.base rest <;> rfl
  | binary =>
      rw [others .hex (by rintro ⟨⟩), others .octal (by rintro ⟨⟩), isNumber]
      cases fromStrRadix Radix.binary.base rest <;> rfl

/-- A text without a prefix. -/
theorem trimmedNumber_unmarked {text : Bytes} (notEmpty : text ≠ [])
    (unmarked : ∀ radix : Radix, ∀ mark ∈ radix.marks, ∀ rest, text ≠ mark ++ rest) :
    trimmedNumber text = (parseF64 text).getD .nan := by
  have noNumber (radix : Radix) : radix.number text = none := by
    cases isNumber : radix.number text with
    | none => rfl
    | some value =>
        obtain ⟨mark, isMark, rest, isText⟩ := radix.exists_mark isNumber
        exact absurd isText (unmarked radix mark isMark rest)
  rw [trimmedNumber_eq notEmpty, noNumber, noNumber, noNumber]
  rfl

/-- A text that `f64::from_str` reads. -/
theorem trimmedNumber_of_parseF64 {text : Bytes} {value : F64}
    (isNumber : parseF64 text = some value) : trimmedNumber text = value := by
  have notEmpty : text ≠ [] := by
    rintro rfl
    cases isNumber
  rw [trimmedNumber_unmarked notEmpty, isNumber, Option.getD_some]
  rintro radix mark isMark rest rfl
  rw [radix.parseF64_mark rest isMark] at isNumber
  cases isNumber

theorem radixDigit_plus (radix : ℕ) : radixDigit radix 43 = none := rfl

/-- Digits without a sign. -/
theorem fromStrRadix_digits {radix value : ℕ} {digits : Bytes} (notEmpty : digits ≠ [])
    (isValue : radixValueFrom radix 0 digits = some value) :
    fromStrRadix radix digits = toU64 value := by
  unfold fromStrRadix
  split
  case h_1 rest =>
    rw [radixValueFrom, radixDigit_plus] at isValue
    cases isValue
  case h_2 =>
    dsimp only
    rw [if_neg (by rw [List.isEmpty_iff]; exact notEmpty), isValue, Option.bind_some]

/-- Digits after a plus sign. -/
theorem fromStrRadix_plus {radix value : ℕ} {digits : Bytes} (notEmpty : digits ≠ [])
    (isValue : radixValueFrom radix 0 digits = some value) :
    fromStrRadix radix (43 :: digits) = toU64 value := by
  change (if digits.isEmpty then none else (radixValueFrom radix 0 digits).bind toU64) = _
  rw [if_neg (by rw [List.isEmpty_iff]; exact notEmpty), isValue, Option.bind_some]

theorem exists_of_fromStrRadix {radix : ℕ} {text : Bytes} {number : UInt64}
    (isNumber : fromStrRadix radix text = some number) :
    ∃ digits value, (text = digits ∨ text = 43 :: digits) ∧ digits ≠ [] ∧
      radixValueFrom radix 0 digits = some value ∧ value < 2 ^ 64 := by
  have ofDigits {digits : Bytes}
      (isSome : (if digits.isEmpty then none else (radixValueFrom radix 0 digits).bind toU64) =
        some number) :
      digits ≠ [] ∧ ∃ value, radixValueFrom radix 0 digits = some value ∧ value < 2 ^ 64 := by
    split at isSome
    case isTrue => cases isSome
    case isFalse notEmpty =>
      obtain ⟨value, isValue, fits⟩ := Option.bind_eq_some_iff.mp isSome
      refine ⟨by rw [List.isEmpty_iff] at notEmpty; exact notEmpty, value, isValue, ?_⟩
      unfold toU64 at fits
      split at fits
      case isTrue small => exact small
      case isFalse => cases fits
  unfold fromStrRadix at isNumber
  dsimp only at isNumber
  split at isNumber
  case h_1 digits =>
    obtain ⟨notEmpty, value, isValue, small⟩ := ofDigits isNumber
    exact ⟨digits, value, .inr rfl, notEmpty, isValue, small⟩
  case h_2 =>
    obtain ⟨notEmpty, value, isValue, small⟩ := ofDigits isNumber
    exact ⟨text, value, .inl rfl, notEmpty, isValue, small⟩

theorem round_natCast (value : ℕ) : F64.round false (value : ℚ) = F64.ofInt value := by
  by_cases isZero : value = 0
  · rw [isZero, Nat.cast_zero, F64.round_zero]
    rfl
  · exact_mod_cast F64.round_intCast false (Int.natCast_ne_zero.mpr isZero)

theorem toU64_map {value : ℕ} (small : value < 2 ^ 64) :
    ((toU64 value).map fun value => F64.ofInt value.toNat) = some (F64.round false value) := by
  rw [toU64, if_pos small, Option.map_some, UInt64.toNat_ofNat_of_lt' small, round_natCast]

/-- A decimal literal has a digit. -/
theorem Decimal.exists_digit (literal : Decimal) :
    ∃ byte ∈ literal.bytes, isAsciiDigit byte = true := by
  obtain ⟨byte, isByte⟩ := List.exists_mem_of_ne_nil _ literal.digits_ne_nil
  refine ⟨byte, ?_, List.all_eq_true.mp literal.all_digits byte isByte⟩
  rw [Decimal.bytes_eq]
  obtain isWhole | isFraction := List.mem_append.mp isByte
  · exact List.mem_append_left _ isWhole
  · refine List.mem_append_right _ (List.mem_append_left _ ?_)
    unfold fractionBytes at isFraction
    cases hasFraction : literal.fraction with
    | none =>
        rw [hasFraction] at isFraction
        exact absurd isFraction List.not_mem_nil
    | some digits =>
        rw [hasFraction] at isFraction
        exact List.mem_cons_of_mem _ isFraction

section InfinityName

variable {name : Bytes} (isName : IsInfinityName name)
include isName

theorem IsInfinityName.not_digit {byte : UInt8} (isByte : byte ∈ name) :
    isAsciiDigit byte = false :=
  (isGraphic_of_isLetter byte (isLetter_of_isInfinityName isName byte isByte)).2

/-- The names of infinity are read as infinities. -/
theorem parseF64_infinityName (sign : Option Bool) :
    parseF64 (signBytes sign ++ name) = some (.infinity (sign.getD false)) := by
  have notNumber : F64.parseNumber name = none := by
    cases isNumber : F64.parseNumber name with
    | none => rfl
    | some magnitude =>
        obtain ⟨literal, rfl⟩ := exists_decimal isNumber
        obtain ⟨byte, isByte, isDigit⟩ := literal.exists_digit
        rw [isName.not_digit isByte] at isDigit
        cases isDigit
  have isMagnitude : F64.parseMagnitude name = some F64.infinityBits := by
    rw [F64.parseMagnitude, notNumber]
    exact if_pos isName
  cases sign with
  | none =>
      have notHead (byte : UInt8) (notLetter : isLetter byte = false) :
          name.head? ≠ some byte := by
        intro isHead
        have isByte := List.mem_of_mem_head? (Option.mem_def.mpr isHead)
        rw [isLetter_of_isInfinityName isName byte isByte] at notLetter
        cases notLetter
      refine (parseF64_unsigned ⟨notHead 45 (by decide), notHead 43 (by decide)⟩).trans ?_
      rw [isMagnitude]
      rfl
  | some negative =>
      cases negative with
      | true => exact congrArg (Option.map (F64.ofMagnitude true)) isMagnitude
      | false => exact congrArg (Option.map (F64.ofMagnitude false)) isMagnitude

end InfinityName

/-- What `f64::from_str` reads: a decimal literal or a name of infinity, with a sign or
without one; the rest is not a number. -/
theorem of_parseF64 {text : Bytes} {number : F64} (isNumber : parseF64 text = some number)
    (notNan : number.isNan = false) :
    (∃ sign, ∃ literal : Decimal, text = signBytes sign ++ literal.bytes) ∨
      ∃ sign name, text = signBytes sign ++ name ∧ IsInfinityName name := by
  have ofMagnitude {rest : Bytes} {negative : Bool}
      (isSome : (F64.parseMagnitude rest).map (F64.ofMagnitude negative) = some number) :
      (∃ literal : Decimal, rest = literal.bytes) ∨ IsInfinityName rest := by
    obtain ⟨magnitude, isMagnitude, rfl⟩ := Option.map_eq_some_iff.mp isSome
    unfold F64.parseMagnitude at isMagnitude
    split at isMagnitude
    case h_1 parsed => exact .inl (exists_decimal parsed)
    case h_2 =>
      dsimp only at isMagnitude
      split at isMagnitude
      case isTrue isName => exact .inr isName
      case isFalse =>
        split at isMagnitude
        case isTrue =>
          cases isMagnitude
          cases negative <;> cases notNan
        case isFalse => cases isMagnitude
  have ofSign (sign : Option Bool) {rest : Bytes} {negative : Bool}
      (isSome : (F64.parseMagnitude rest).map (F64.ofMagnitude negative) = some number) :
      (∃ otherSign, ∃ literal : Decimal,
          signBytes sign ++ rest = signBytes otherSign ++ literal.bytes) ∨
        ∃ otherSign name,
          signBytes sign ++ rest = signBytes otherSign ++ name ∧ IsInfinityName name := by
    obtain ⟨literal, rfl⟩ | isName := ofMagnitude isSome
    · exact .inl ⟨sign, literal, rfl⟩
    · exact .inr ⟨sign, rest, rfl, isName⟩
  unfold parseF64 at isNumber
  split at isNumber
  · exact ofSign (some true) isNumber
  · exact ofSign (some false) isNumber
  · exact ofSign none isNumber

/-! ## Literals -/

/-- A literal is read as its number. -/
theorem trimmedNumber_bytes (literal : NumericLiteral) (fits : literal.Fits) :
    trimmedNumber literal.bytes = literal.number := by
  cases literal with
  | empty => rfl
  | decimal sign literal => exact trimmedNumber_of_parseF64 (parseF64_decimal sign literal)
  | infinity sign =>
      exact trimmedNumber_of_parseF64 (parseF64_infinityName (.inr (by decide)) sign)
  | integer radix mark digits value isMark notEmpty isValue =>
      change trimmedNumber (mark ++ digits) = F64.round false value
      rw [trimmedNumber_mark radix isMark, fromStrRadix_digits notEmpty isValue, toU64_map fits,
        Option.getD_some]

/-- A literal that does not fit is not read. -/
theorem trimmedNumber_wide (literal : NumericLiteral) (wide : ¬literal.Fits) :
    trimmedNumber literal.bytes = .nan := by
  cases literal with
  | empty => exact absurd trivial wide
  | decimal sign literal => exact absurd trivial wide
  | infinity sign => exact absurd trivial wide
  | integer radix mark digits value isMark notEmpty isValue =>
      change trimmedNumber (mark ++ digits) = .nan
      rw [trimmedNumber_mark radix isMark, fromStrRadix_digits notEmpty isValue, toU64,
        if_neg (show ¬value < 2 ^ 64 from wide)]
      rfl

/-- An integer with a plus sign after the prefix. -/
structure PlusInteger where
  radix : Radix
  mark : Bytes
  digits : Bytes
  value : ℕ
  isMark : mark ∈ radix.marks
  notEmpty : digits ≠ []
  isValue : radixValueFrom radix.base 0 digits = some value
  small : value < 2 ^ 64

/-- The text of an integer with a plus sign. -/
def PlusInteger.bytes (integer : PlusInteger) : Bytes :=
  integer.mark ++ 43 :: integer.digits

theorem PlusInteger.isVisible_bytes (integer : PlusInteger) : IsVisible integer.bytes :=
  (integer.radix.isVisible_mark integer.isMark).append <|
    List.forall_mem_cons.mpr ⟨by decide, isVisible_of_radixValueFrom integer.isValue⟩

theorem trimmedNumber_plus (integer : PlusInteger) :
    trimmedNumber integer.bytes = .round false integer.value := by
  rw [PlusInteger.bytes, trimmedNumber_mark integer.radix integer.isMark,
    fromStrRadix_plus integer.notEmpty integer.isValue, toU64_map integer.small, Option.getD_some]

/-- What is read as a number: a literal that fits, a name of infinity, and an integer
with a plus sign. -/
theorem of_trimmedNumber {text : Bytes} (notNan : (trimmedNumber text).isNan = false) :
    (∃ literal : NumericLiteral, literal.Fits ∧ literal.bytes = text) ∨
      (∃ sign name, text = signBytes sign ++ name ∧ IsInfinityName name) ∨
      ∃ integer : PlusInteger, text = integer.bytes := by
  by_cases isEmpty : text = []
  · exact .inl ⟨.empty, trivial, isEmpty.symm⟩
  by_cases marked : ∃ radix : Radix, ∃ mark ∈ radix.marks, ∃ rest, text = mark ++ rest
  · obtain ⟨radix, mark, isMark, rest, rfl⟩ := marked
    rw [trimmedNumber_mark radix isMark] at notNan
    cases isNumber : fromStrRadix radix.base rest with
    | none =>
        rw [isNumber] at notNan
        cases notNan
    | some number =>
        obtain ⟨digits, value, isText, notEmpty, isValue, small⟩ := exists_of_fromStrRadix isNumber
        obtain rfl | rfl := isText
        · exact .inl ⟨.integer radix mark rest value isMark notEmpty isValue, small, rfl⟩
        · exact .inr (.inr ⟨⟨radix, mark, digits, value, isMark, notEmpty, isValue, small⟩, rfl⟩)
  · have unmarked : ∀ radix : Radix, ∀ mark ∈ radix.marks, ∀ rest, text ≠ mark ++ rest :=
      fun radix mark isMark rest isText => marked ⟨radix, mark, isMark, rest, isText⟩
    rw [trimmedNumber_unmarked isEmpty unmarked] at notNan
    cases isNumber : parseF64 text with
    | none =>
        rw [isNumber] at notNan
        cases notNan
    | some number =>
        rw [isNumber, Option.getD_some] at notNan
        obtain ⟨sign, literal, isText⟩ | isName := of_parseF64 isNumber notNan
        · exact .inl ⟨.decimal sign literal, trivial, isText.symm⟩
        · exact .inr (.inl isName)

/-! ## The numbers of literals -/

section Number

variable {magnitude : ℕ}

theorem isNan_ofMagnitude (low : magnitude ≤ F64.infinityBits) (negative : Bool) :
    (F64.ofMagnitude negative magnitude).isNan = false := by
  rw [F64.isNan, F64.magnitude_ofMagnitude (low.trans_lt F64.infinityBits_lt)]
  exact decide_eq_false (not_lt.mpr low)

theorem isInfinite_ofMagnitude (low : magnitude ≤ F64.infinityBits) (negative : Bool) :
    (F64.ofMagnitude negative magnitude).isInfinite = decide (magnitude = F64.infinityBits) := by
  rw [F64.isInfinite, F64.magnitude_ofMagnitude (low.trans_lt F64.infinityBits_lt)]

theorem isNan_round_isInfinite_round (negative : Bool) {number : ℚ} (nonneg : 0 ≤ number) :
    (F64.round negative (if negative then -number else number)).isNan = false ∧
      ((F64.round negative (if negative then -number else number)).isInfinite = true ↔
        Binary64.overflow ≤ number) := by
  rw [round_eq negative nonneg]
  refine ⟨isNan_ofMagnitude (Binary64.nearest_le number) negative, ?_⟩
  rw [isInfinite_ofMagnitude (Binary64.nearest_le number), decide_eq_true_iff]
  exact Binary64.nearest_eq_infinityBits_iff nonneg

end Number

/-- The number of a literal is a number, and infinite for large literals only. -/
theorem NumericLiteral.isNan_isInfinite_number (literal : NumericLiteral) :
    literal.number.isNan = false ∧ (literal.number.isInfinite = true ↔ literal.IsLarge) := by
  cases literal with
  | empty => exact ⟨rfl, iff_of_false (by decide) id⟩
  | decimal sign literal =>
      exact isNan_round_isInfinite_round (sign.getD false) literal.value_nonneg
  | infinity sign =>
      refine ⟨isNan_ofMagnitude (le_refl _) _, iff_of_true ?_ trivial⟩
      exact (isInfinite_ofMagnitude (le_refl _) _).trans (decide_eq_true rfl)
  | integer radix mark digits value isMark notEmpty isValue =>
      exact isNan_round_isInfinite_round false (Nat.cast_nonneg value)

/-- Digits as a decimal literal. -/
def Decimal.ofDigits (digits : Bytes) (notEmpty : digits ≠ [])
    (areDigits : digits.all isAsciiDigit = true) : Decimal where
  whole := digits
  fraction := none
  exponent := none
  wholeDigits := areDigits
  fractionDigits := fun _ same => by cases same
  exponentDigits := fun _ _ same => by cases same
  notEmpty := .inl notEmpty

section OfDigits

variable {digits : Bytes} (notEmpty : digits ≠ []) (areDigits : digits.all isAsciiDigit = true)

theorem Decimal.bytes_ofDigits : (Decimal.ofDigits digits notEmpty areDigits).bytes = digits := by
  rw [Decimal.bytes_eq]
  exact List.append_nil _

theorem Decimal.value_ofDigits :
    (Decimal.ofDigits digits notEmpty areDigits).value = digitsNumber digits := by
  have noFraction : (Decimal.ofDigits digits notEmpty areDigits).fractionBytes = [] := rfl
  have noExponent : (Decimal.ofDigits digits notEmpty areDigits).written = 0 := rfl
  rw [Decimal.value, noFraction, noExponent, List.append_nil]
  change (digitsNumber digits : ℚ) * 10 ^ (0 - 0 : ℤ) = _
  rw [sub_zero, zpow_zero, mul_one]

end OfDigits

/-! ## The fast path -/

/-- A zero with a minus sign that the fast path reads. -/
def IsShortNegativeZero (text : Bytes) : Prop :=
  ∃ zeros, zeros ≠ [] ∧ (∀ byte ∈ zeros, byte = 48) ∧ text = 45 :: zeros ∧ text.length ≤ 10

theorem foldl_digits_eq_zero {digits : Bytes} (areDigits : digits.all isAsciiDigit = true)
    {start : ℕ}
    (isZero : digits.foldl (fun value digit => value * 10 + (digit.toNat - 48)) start = 0) :
    start = 0 ∧ ∀ byte ∈ digits, byte = 48 := by
  induction digits generalizing start with
  | nil => exact ⟨isZero, fun _ isByte => absurd isByte List.not_mem_nil⟩
  | cons digit digits ih =>
      rw [List.all_cons, Bool.and_eq_true] at areDigits
      obtain ⟨isFirst, areZeros⟩ := ih areDigits.2 isZero
      have isDigit := areDigits.1
      simp only [isAsciiDigit, Bool.and_eq_true, decide_eq_true_eq, UInt8.le_iff_toNat_le]
        at isDigit
      have low : 48 ≤ digit.toNat := isDigit.1
      change start * 10 + (digit.toNat - 48) = 0 at isFirst
      refine ⟨by omega, List.forall_mem_cons.mpr ⟨UInt8.toNat_inj.mp ?_, areZeros⟩⟩
      change digit.toNat = 48
      omega

/-- A number is zero when all its digits are. -/
theorem digitsNumber_eq_zero {digits : Bytes} (areDigits : digits.all isAsciiDigit = true)
    (isZero : digitsNumber digits = 0) : ∀ byte ∈ digits, byte = 48 :=
  (foldl_digits_eq_zero areDigits isZero).2

/-- Digits with a sign, on the general path. -/
theorem generalNumber_digits (sign : Option Bool) {digits : Bytes} (notEmpty : digits ≠ [])
    (areDigits : digits.all isAsciiDigit = true)
    (valid : (fromUtf8 (signBytes sign ++ digits)).isSome = true) :
    generalNumber (signBytes sign ++ digits) =
      .round (sign.getD false)
        (if sign.getD false then -(digitsNumber digits : ℚ) else digitsNumber digits) := by
  have isNumber := trimmedNumber_bytes
    (.decimal sign (.ofDigits digits notEmpty areDigits)) trivial
  rw [NumericLiteral.bytes, Decimal.bytes_ofDigits, NumericLiteral.number,
    Decimal.value_ofDigits] at isNumber
  rw [generalNumber, if_pos valid, ← isNumber,
    trim_eq_self ((isVisible_signBytes sign).append (isVisible_of_all areDigits))]

/-- What the fast path reads: digits, with a minus sign or without one. -/
theorem of_fastNumber {text : Bytes} {number : F64} (isFast : fastNumber text = some number) :
    text.length ≤ 10 ∧ ∃ digits, digits ≠ [] ∧ digits.all isAsciiDigit = true ∧
      (text = signBytes (some true) ++ digits ∧ number = F64.ofInt (-digitsNumber digits) ∨
        text = signBytes none ++ digits ∧ number = F64.ofInt (digitsNumber digits)) := by
  unfold fastNumber at isFast
  split at isFast
  case isTrue => cases isFast
  case isFalse short =>
    refine ⟨not_lt.mp (not_or.mp short).2, ?_⟩
    split at isFast
    case h_1 digits =>
      obtain ⟨value, isValue, rfl⟩ := Option.map_eq_some_iff.mp isFast
      obtain ⟨notEmpty, areDigits, rfl⟩ := of_digitsValue isValue
      exact ⟨digits, notEmpty, areDigits, .inl ⟨rfl, rfl⟩⟩
    case h_2 =>
      obtain ⟨value, isValue, rfl⟩ := Option.map_eq_some_iff.mp isFast
      obtain ⟨notEmpty, areDigits, rfl⟩ := of_digitsValue isValue
      exact ⟨text, notEmpty, areDigits, .inr ⟨rfl, rfl⟩⟩

/-- The fast path gives the number of the general one, except for a zero with a sign. -/
theorem generalNumber_of_fastNumber {text : Bytes} (valid : (fromUtf8 text).isSome = true)
    (notZero : ¬IsShortNegativeZero text) {number : F64} (isFast : fastNumber text = some number) :
    generalNumber text = number := by
  obtain ⟨short, digits, notEmpty, areDigits, ⟨rfl, rfl⟩ | ⟨isText, rfl⟩⟩ := of_fastNumber isFast
  · have nonzero : (-(digitsNumber digits : ℤ)) ≠ 0 := by
      intro isZero
      have areZeros := digitsNumber_eq_zero areDigits (by omega)
      exact notZero ⟨digits, notEmpty, areZeros, rfl, short⟩
    rw [generalNumber_digits (some true) notEmpty areDigits valid]
    exact_mod_cast F64.round_intCast true nonzero
  · rw [isText] at valid ⊢
    rw [generalNumber_digits none notEmpty areDigits valid]
    exact round_natCast _

/-- On a zero with a minus sign both paths differ. -/
theorem generalNumber_of_isShortNegativeZero {text : Bytes}
    (valid : (fromUtf8 text).isSome = true) (isZero : IsShortNegativeZero text) :
    ∃ number, fastNumber text = some number ∧ generalNumber text ≠ number := by
  obtain ⟨zeros, notEmpty, areZeros, rfl, short⟩ := isZero
  have areDigits : zeros.all isAsciiDigit = true :=
    List.all_eq_true.mpr fun byte isByte => by rw [areZeros byte isByte]; decide
  have isNothing : digitsNumber zeros = 0 := by
    have zerosOnly : zeros = List.replicate zeros.length 48 :=
      List.eq_replicate_iff.mpr ⟨rfl, areZeros⟩
    have isFold (count : ℕ) : digitsNumber (List.replicate count 48) = 0 := by
      induction count with
      | zero => rfl
      | succ count ih => exact ih
    rw [zerosOnly, isFold]
  have isGeneral := generalNumber_digits (some true) notEmpty areDigits valid
  rw [isNothing, Nat.cast_zero, neg_zero, ite_self, F64.round_zero] at isGeneral
  refine ⟨F64.ofInt 0, ?_, ?_⟩
  · have isRead : fastNumber (45 :: zeros) =
        (digitsValue zeros).map fun value : ℕ => F64.ofInt (-value) := by
      have isShort : ¬((45 :: zeros).isEmpty = true ∨ 10 < (45 :: zeros).length) :=
        not_or.mpr ⟨Bool.false_ne_true, not_lt.mpr short⟩
      rw [fastNumber, if_neg isShort]
    rw [isRead, digitsValue_eq areDigits notEmpty, isNothing]
    rfl
  · change generalNumber (signBytes (some true) ++ zeros) ≠ _
    rw [isGeneral]
    decide

/-! ## Conversion -/

/-- A number is the one that the standard gives for a text. -/
structure ConvertsAsStandard (text : Bytes) (number : F64) : Prop where
  literal : ∀ literal : NumericLiteral, literal.bytes = esTrim text → number = literal.number
  isNan_iff : number.isNan = true ↔ ¬IsLiteral (esTrim text)
  isInfinite_iff : number.isInfinite = true ↔
    ∃ literal : NumericLiteral, literal.bytes = esTrim text ∧ literal.IsLarge
  integer : ∀ (sign : Option Bool) (digits : Bytes), digits ≠ [] →
    digits.all isAsciiDigit = true → digits.length ≤ 15 → signBytes sign ++ digits = esTrim text →
      number.isNegative = sign.getD false ∧
        number.toRat =
          if sign.getD false then -(digitsNumber digits : ℚ) else digitsNumber digits
  fast : ∀ value, fastNumber text = some value → generalNumber text = value

/-- The texts that are not converted as the standard says. -/
inductive Deviates (text : Bytes) : Prop
  | negativeZero (isZero : IsShortNegativeZero text)
  | infinityName (sign : Option Bool) (name : Bytes) (isTrimmed : trim text = signBytes sign ++ name)
      (isName : IsInfinityName name) (differ : name ≠ asBytes "Infinity")
  | plus (integer : PlusInteger) (isTrimmed : trim text = integer.bytes)
  | wide (literal : NumericLiteral) (isTrimmed : literal.bytes = esTrim text)
      (isWide : ¬literal.Fits)
  | margins (differ : trim text ≠ esTrim text)
      (isRead : (∃ literal : NumericLiteral, literal.Fits ∧ literal.bytes = trim text) ∨
        IsLiteral (esTrim text))

theorem filter_isLetter_signBytes (sign : Option Bool) {name : Bytes}
    (letters : ∀ byte ∈ name, isLetter byte = true) :
    (signBytes sign ++ name).filter isLetter = name := by
  have noLetter : (signBytes sign).filter isLetter = [] := by
    cases sign with
    | none => rfl
    | some negative => cases negative <;> rfl
  rw [List.filter_append, noLetter, List.nil_append, List.filter_eq_self.mpr letters]

theorem Radix.digit_mem_mark (radix : Radix) {mark : Bytes} (isMark : mark ∈ radix.marks) :
    48 ∈ mark ∧ mark.length = 2 := by
  have allMarks : ∀ mark ∈ radix.marks, 48 ∈ mark ∧ mark.length = 2 := by
    cases radix <;> decide
  exact allMarks mark isMark

/-- The names of infinity other than `Infinity` are no literals. -/
theorem not_isLiteral_infinityName (sign : Option Bool) {name : Bytes}
    (isName : IsInfinityName name) (differ : name ≠ asBytes "Infinity") :
    ¬IsLiteral (signBytes sign ++ name) := by
  have noDigit : ∀ byte ∈ signBytes sign ++ name, isAsciiDigit byte = false := by
    intro byte isByte
    obtain isSign | isName' := List.mem_append.mp isByte
    · have noSign : ∀ byte ∈ signBytes sign, isAsciiDigit byte = false := by
        cases sign with
        | none => exact fun _ isByte => absurd isByte List.not_mem_nil
        | some negative => cases negative <;> exact List.forall_mem_singleton.mpr rfl
      exact noSign byte isSign
    · exact isName.not_digit isName'
  rintro ⟨literal, same⟩
  cases literal with
  | empty =>
      obtain ⟨-, rfl⟩ := List.append_eq_nil_iff.mp same.symm
      obtain isShort | isLong := isName
      · cases isShort
      · cases isLong
  | decimal otherSign literal =>
      obtain ⟨byte, isByte, isDigit⟩ := literal.exists_digit
      have notDigit := noDigit byte (same ▸ List.mem_append_right _ isByte)
      rw [notDigit] at isDigit
      cases isDigit
  | infinity otherSign =>
      refine differ ?_
      have sameLetters := congrArg (List.filter isLetter) same
      rw [NumericLiteral.bytes, filter_isLetter_signBytes otherSign (List.all_eq_true.mp rfl),
        filter_isLetter_signBytes sign (isLetter_of_isInfinityName isName)] at sameLetters
      exact sameLetters.symm
  | integer radix mark digits value isMark notEmpty isValue =>
      have isZero := noDigit 48 (same ▸ List.mem_append_left _ (radix.digit_mem_mark isMark).1)
      cases isZero

/-- An integer with a plus sign after the prefix is no literal. -/
theorem not_isLiteral_plus (integer : PlusInteger) : ¬IsLiteral integer.bytes := by
  obtain ⟨hasDigit, isTwo⟩ := integer.radix.digit_mem_mark integer.isMark
  have isZero : 48 ∈ integer.bytes := List.mem_append_left _ hasDigit
  rintro ⟨literal, same⟩
  cases literal with
  | empty =>
      rw [← same] at isZero
      exact absurd isZero List.not_mem_nil
  | decimal sign literal =>
      have isNumber := parseF64_decimal sign literal
      rw [show signBytes sign ++ literal.bytes = integer.bytes from same, PlusInteger.bytes,
        integer.radix.parseF64_mark _ integer.isMark] at isNumber
      cases isNumber
  | infinity sign =>
      rw [← same] at isZero
      revert isZero
      cases sign with
      | none => decide
      | some negative => cases negative <;> decide
  | integer radix mark digits value isMark notEmpty isValue =>
      have sameLength : mark.length = integer.mark.length :=
        (radix.digit_mem_mark isMark).2.trans isTwo.symm
      obtain ⟨-, rfl⟩ := List.append_inj same sameLength
      rw [radixValueFrom, radixDigit_plus] at isValue
      cases isValue

/-- A text that is read and a literal differ in no white space. -/
theorem trim_eq_of_isLiteral {text : Bytes} (isLiteral : IsLiteral (esTrim text))
    (notNan : (trimmedNumber (trim text)).isNan = false) : trim text = esTrim text := by
  refine trim_eq_esTrim ?_ isLiteral.isVisible
  obtain ⟨literal, -, isText⟩ | ⟨sign, name, isText, isName⟩ | ⟨integer, isText⟩ :=
    of_trimmedNumber notNan
  · exact IsLiteral.isVisible ⟨literal, isText⟩
  · rw [isText]
    exact (isVisible_signBytes sign).append (isVisible_of_isInfinityName isName)
  · rw [isText]
    exact integer.isVisible_bytes

theorem foldl_digits_lt {digits : Bytes} (areDigits : digits.all isAsciiDigit = true)
    (start : ℕ) :
    digits.foldl (fun value digit => value * 10 + (digit.toNat - 48)) start <
      (start + 1) * 10 ^ digits.length := by
  induction digits generalizing start with
  | nil => exact (Nat.lt_succ_self start).trans_eq (Nat.mul_one _).symm
  | cons digit digits ih =>
      rw [List.all_cons, Bool.and_eq_true] at areDigits
      have isDigit := areDigits.1
      simp only [isAsciiDigit, Bool.and_eq_true, decide_eq_true_eq, UInt8.le_iff_toNat_le]
        at isDigit
      have high : digit.toNat ≤ 57 := isDigit.2
      calc digits.foldl _ (start * 10 + (digit.toNat - 48))
          < (start * 10 + (digit.toNat - 48) + 1) * 10 ^ digits.length := ih areDigits.2 _
        _ ≤ ((start + 1) * 10) * 10 ^ digits.length :=
            Nat.mul_le_mul_right _ (by omega)
        _ = (start + 1) * 10 ^ (digits.length + 1) := by rw [Nat.mul_assoc, Nat.pow_succ']

theorem digitsNumber_lt {digits : Bytes} (areDigits : digits.all isAsciiDigit = true) :
    digitsNumber digits < 10 ^ digits.length :=
  (foldl_digits_lt areDigits 0).trans_eq (Nat.one_mul _)

/-- A small integer is exact. -/
theorem isNegative_toRat_round (negative : Bool) {value : ℕ} (small : value < 2 ^ 52) :
    (F64.round negative (if negative then -(value : ℚ) else value)).isNegative = negative ∧
      (F64.round negative (if negative then -(value : ℚ) else value)).toRat =
        if negative then -(value : ℚ) else value := by
  have isNearest : Binary64.nearest value = F64.roundRatio value 1 := by
    by_cases isZero : value = 0
    · rw [isZero]
      rfl
    · rw [F64.roundRatio_eq (Nat.pos_of_ne_zero isZero) Nat.one_pos, Nat.cast_one, div_one]
  have inRange : F64.roundRatio value 1 < 2 ^ 63 :=
    (F64.roundRatio_lt_infinityBits small).trans F64.infinityBits_lt
  rw [round_eq negative (Nat.cast_nonneg value), isNearest, F64.toRat,
    F64.isNegative_ofMagnitude inRange, F64.absRat_ofMagnitude_roundRatio small]
  exact ⟨rfl, rfl⟩

/-- A number that is the one of each literal, and not a number for other texts. -/
theorem ConvertsAsStandard.mk' {text : Bytes}
    (literal : ∀ literal : NumericLiteral, literal.bytes = esTrim text →
      generalNumber text = literal.number)
    (notLiteral : ¬IsLiteral (esTrim text) → (generalNumber text).isNan = true)
    (fast : ∀ value, fastNumber text = some value → generalNumber text = value) :
    ConvertsAsStandard text (generalNumber text) where
  literal := literal
  isNan_iff := by
    refine ⟨fun isNan => ?_, notLiteral⟩
    rintro ⟨written, isText⟩
    rw [literal written isText, written.isNan_isInfinite_number.1] at isNan
    cases isNan
  isInfinite_iff := by
    constructor
    · intro isInfinite
      by_cases isLiteral : IsLiteral (esTrim text)
      · obtain ⟨written, isText⟩ := isLiteral
        rw [literal written isText] at isInfinite
        exact ⟨written, isText, written.isNan_isInfinite_number.2.mp isInfinite⟩
      · have isNan := notLiteral isLiteral
        rw [F64.isInfinite, decide_eq_true_iff] at isInfinite
        rw [F64.isNan, isInfinite, decide_eq_true_iff] at isNan
        exact absurd isNan (lt_irrefl _)
    · rintro ⟨written, isText, isLarge⟩
      rw [literal written isText]
      exact written.isNan_isInfinite_number.2.mpr isLarge
  integer := by
    intro sign digits notEmpty areDigits isShort isText
    have isNumber := literal (.decimal sign (.ofDigits digits notEmpty areDigits))
      ((congrArg (signBytes sign ++ ·) (Decimal.bytes_ofDigits notEmpty areDigits)).trans isText)
    have small : digitsNumber digits < 2 ^ 52 := by
      calc digitsNumber digits < 10 ^ digits.length := digitsNumber_lt areDigits
        _ ≤ 10 ^ 15 := Nat.pow_le_pow_right (by decide) isShort
        _ < 2 ^ 52 := by decide
    rw [isNumber, NumericLiteral.number, Decimal.value_ofDigits]
    exact isNegative_toRat_round (sign.getD false) small
  fast := fast

/-- Where a text deviates, its number is not the standard's. -/
theorem ConvertsAsStandard.not_deviates {text : Bytes} (valid : (fromUtf8 text).isSome = true)
    (standard : ConvertsAsStandard text (trimmedNumber (trim text))) : ¬Deviates text := by
  have isLiteral_of (notNan : (trimmedNumber (trim text)).isNan = false) :
      IsLiteral (esTrim text) := by
    by_contra notLiteral
    rw [standard.isNan_iff.mpr notLiteral] at notNan
    cases notNan
  have notNan_of (isLiteral : IsLiteral (esTrim text)) :
      (trimmedNumber (trim text)).isNan = false :=
    Bool.eq_false_iff.mpr fun isNan => standard.isNan_iff.mp isNan isLiteral
  intro deviates
  cases deviates with
  | negativeZero isZero =>
      obtain ⟨number, isFast, differ⟩ := generalNumber_of_isShortNegativeZero valid isZero
      exact differ (standard.fast number isFast)
  | infinityName sign name isTrimmed isName differ =>
      have notNan : (trimmedNumber (trim text)).isNan = false := by
        rw [isTrimmed, trimmedNumber_of_parseF64 (parseF64_infinityName isName sign)]
        exact isNan_ofMagnitude (le_refl _) _
      have isLiteral := isLiteral_of notNan
      rw [← trim_eq_of_isLiteral isLiteral notNan, isTrimmed] at isLiteral
      exact not_isLiteral_infinityName sign isName differ isLiteral
  | plus integer isTrimmed =>
      have notNan : (trimmedNumber (trim text)).isNan = false := by
        rw [isTrimmed, trimmedNumber_plus]
        exact (isNan_round_isInfinite_round false (Nat.cast_nonneg integer.value)).1
      have isLiteral := isLiteral_of notNan
      rw [← trim_eq_of_isLiteral isLiteral notNan, isTrimmed] at isLiteral
      exact not_isLiteral_plus integer isLiteral
  | wide literal isTrimmed isWide =>
      have isLiteral : IsLiteral (esTrim text) := ⟨literal, isTrimmed⟩
      have notNan := notNan_of isLiteral
      rw [trim_eq_of_isLiteral isLiteral notNan, ← isTrimmed,
        trimmedNumber_wide literal isWide] at notNan
      cases notNan
  | margins differ isRead =>
      have notNan : (trimmedNumber (trim text)).isNan = false := by
        obtain ⟨literal, fits, isTrimmed⟩ | isLiteral := isRead
        · rw [← isTrimmed, trimmedNumber_bytes literal fits]
          exact literal.isNan_isInfinite_number.1
        · exact notNan_of isLiteral
      exact differ (trim_eq_of_isLiteral (isLiteral_of notNan) notNan)

/-- The conversion of a string is the standard's exactly when the text does not
deviate. -/
theorem convertsAsStandard_iff
    (conversions : Conversions) {ctx : Context} {val : JSValue} {text : Bytes}
    (isText : ctx.stringBytes val = some text) (valid : (fromUtf8 text).isSome = true) :
    (∃ number, (ctx.jsToNumber conversions val).1 = some number ∧
      ConvertsAsStandard text number) ↔ ¬Deviates text := by
  have isGeneral : generalNumber text = trimmedNumber (trim text) := if_pos valid
  have isConverted := Context.jsToNumber_of_string conversions isText
  have ofFast (fast : ∀ value, fastNumber text = some value → generalNumber text = value) :
      stringToNumber text = generalNumber text := by
    unfold stringToNumber
    cases isFast : fastNumber text with
    | none => rfl
    | some value => exact (fast value isFast).symm
  constructor
  · rintro ⟨number, isNumber, standard⟩ deviates
    rw [isConverted] at isNumber
    obtain rfl : trimmedNumber (trim text) = number := by
      rw [← isGeneral, ← ofFast standard.fast]
      exact Option.some.inj isNumber
    exact standard.not_deviates valid deviates
  · intro conforms
    have fast (value : F64) (isFast : fastNumber text = some value) : generalNumber text = value :=
      generalNumber_of_fastNumber valid (fun isZero => conforms (.negativeZero isZero)) isFast
    refine ⟨generalNumber text, ?_, .mk' (fun literal isText => ?_) (fun notLiteral => ?_) fast⟩
    · rw [isConverted, ofFast fast]
    · have sameTrim : trim text = esTrim text :=
        Classical.byContradiction fun differ => conforms (.margins differ (.inr ⟨literal, isText⟩))
      have fits : literal.Fits :=
        Classical.byContradiction fun isWide => conforms (.wide literal isText isWide)
      rw [isGeneral, sameTrim, ← isText, trimmedNumber_bytes literal fits]
    · rw [isGeneral]
      by_contra notNan
      have noLiteral (literal : NumericLiteral) (fits : literal.Fits)
          (isTrimmed : literal.bytes = trim text) : False := by
        by_cases sameTrim : trim text = esTrim text
        · exact notLiteral ⟨literal, isTrimmed.trans sameTrim⟩
        · exact conforms (.margins sameTrim (.inl ⟨literal, fits, isTrimmed⟩))
      obtain ⟨literal, fits, isTrimmed⟩ | ⟨sign, name, isTrimmed, isName⟩ | ⟨integer, isTrimmed⟩ :=
        of_trimmedNumber (Bool.eq_false_iff.mpr notNan)
      · exact noLiteral literal fits isTrimmed
      · by_cases isStandard : name = asBytes "Infinity"
        · exact noLiteral (.infinity sign) trivial (by rw [isTrimmed, isStandard]; rfl)
        · exact conforms (.infinityName sign name isTrimmed isName isStandard)
      · exact conforms (.plus integer isTrimmed)

/-- A context with one string. -/
def textContext (bytes : Bytes) : Context :=
  { Context.new 4096 with heap := Function.update (fun _ => none) 0 (some (.string bytes)) }

/-- Primitive values stay as they are. -/
def plainConversions : Conversions where
  toPrimitive := fun _ ctx val => (val, ctx)
  isPending := fun _ => false
  display := fun _ => []

theorem stringBytes_textContext (bytes : Bytes) :
    (textContext bytes).stringBytes (.ptr 0) = some bytes := by
  simp only [Context.stringBytes, textContext, Function.update_self]

theorem convertsAsStandard_iff_twelve :
    (∃ number, ((textContext (asBytes "12")).jsToNumber plainConversions (.ptr 0)).1 = some number ∧
      ConvertsAsStandard (asBytes "12") number) ↔ ¬Deviates (asBytes "12") :=
  convertsAsStandard_iff plainConversions (stringBytes_textContext _) (by decide)

/-- A zero with a minus sign loses it. -/
theorem not_always_convertsAsStandard :
    ¬∀ (conversions : Conversions) (ctx : Context) (val : JSValue) (text : Bytes),
      ctx.stringBytes val = some text → (fromUtf8 text).isSome = true →
      ∃ number, (ctx.jsToNumber conversions val).1 = some number ∧
        ConvertsAsStandard text number := by
  intro always
  have valid : (fromUtf8 [45, 48]).isSome = true := by decide
  have isZero : IsShortNegativeZero [45, 48] :=
    ⟨[48], by decide, List.forall_mem_singleton.mpr rfl, rfl, by decide⟩
  obtain ⟨number, -, standard⟩ :=
    always plainConversions _ _ [45, 48] (stringBytes_textContext _) valid
  obtain ⟨value, isFast, differ⟩ := generalNumber_of_isShortNegativeZero valid isZero
  exact differ (standard.fast value isFast)

end Script
end MuonJs
