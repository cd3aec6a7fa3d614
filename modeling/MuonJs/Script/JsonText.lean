import MuonJs.Script.Json
import MuonJs.Script.Lexing

/-!
# JSON texts

JSON values as trees, the text that the writer gives a tree, and how the reader
takes strings and numbers in.  A quote, a backslash and a line break are escaped
in a string and come back; any other control character is written as it is, and
rejected.
-/

namespace MuonJs
namespace Script

open Cache (Bytes F64 asBytes asBytes_eq_flatMap asBytes_of_fromUtf8 fromUtf8 parseF64 natBytes
  isAsciiDigit natBytes_spec digitsFrom digitsValue)

/-- A JSON value without fractions. -/
inductive Json
  | null
  | bool (truth : Bool)
  | int (n : Int32)
  | string (bytes : Bytes)
  | array (items : List Json)
  | object (entries : List (Bytes × Json))

namespace Json

/-! ## The text of a tree -/

mutual

/-- The text of a tree. -/
def text : Json → Bytes
  | .null => asBytes "null"
  | .bool truth => asBytes (if truth then "true" else "false")
  | .int n => i32Bytes n
  | .string bytes => stringText ((fromUtf8 bytes).getD "")
  | .array items => 91 :: itemsText true items ++ [93]
  | .object entries => 123 :: entriesText true entries ++ [125]

/-- The text of the elements of an array. -/
def itemsText (isFirst : Bool) : List Json → Bytes
  | [] => []
  | item :: items => separator isFirst ++ text item ++ itemsText false items

/-- The text of the entries of an object. -/
def entriesText (isFirst : Bool) : List (Bytes × Json) → Bytes
  | [] => []
  | (key, value) :: entries =>
      separator isFirst ++ 34 :: key ++ asBytes "\":" ++ text value ++ entriesText false entries

end

/-! ## Characters and bytes -/

/-- The text of one byte of a string. -/
def escapeByte (byte : UInt8) : Bytes :=
  if byte = 34 then [92, 34]
  else if byte = 92 then [92, 92]
  else if byte = 10 then [92, 110]
  else if byte = 13 then [92, 114]
  else if byte = 9 then [92, 116]
  else [byte]

theorem asBytes_ofList (chars : List Char) :
    asBytes (String.ofList chars) = chars.flatMap String.utf8EncodeChar := by
  rw [asBytes_eq_flatMap, String.toList_ofList]

theorem asBytes_append (first second : String) :
    asBytes (first ++ second) = asBytes first ++ asBytes second := by
  rw [asBytes_eq_flatMap, asBytes_eq_flatMap, asBytes_eq_flatMap, String.toList_append,
    List.flatMap_append]

/-- A character is one byte below `0x80`, or bytes from `0x80` on. -/
theorem utf8EncodeChar_cases (char : Char) :
    (char.toNat < 128 ∧ String.utf8EncodeChar char = [UInt8.ofNat char.toNat]) ∨
      (128 ≤ char.toNat ∧ ∀ byte ∈ String.utf8EncodeChar char, 128 ≤ byte) := by
  have large (value : ℕ) (low : 128 ≤ value) (high : value < 256) : 128 ≤ UInt8.ofNat value := by
    rw [UInt8.le_iff_toNat_le, UInt8.toNat_ofNat_of_lt' high]
    exact low
  unfold String.utf8EncodeChar
  dsimp only
  by_cases isAscii : char.val.toNat ≤ 127
  · rw [if_pos isAscii]
    exact .inl ⟨Nat.lt_succ_of_le isAscii, rfl⟩
  · rw [if_neg isAscii]
    refine .inr ⟨Nat.lt_of_not_le isAscii, fun byte isByte => ?_⟩
    split at isByte
    · simp only [List.mem_cons, List.not_mem_nil, or_false] at isByte
      rcases isByte with rfl | rfl <;> exact large _ (by omega) (by omega)
    · split at isByte
      · simp only [List.mem_cons, List.not_mem_nil, or_false] at isByte
        rcases isByte with rfl | rfl | rfl <;> exact large _ (by omega) (by omega)
      · simp only [List.mem_cons, List.not_mem_nil, or_false] at isByte
        rcases isByte with rfl | rfl | rfl | rfl <;> exact large _ (by omega) (by omega)

/-- Bytes from `0x80` on are no quote, no backslash and no control character. -/
theorem escapeByte_of_large {byte : UInt8} (isLarge : 128 ≤ byte) : escapeByte byte = [byte] := by
  have other (small : UInt8) (isSmall : small < 128) : byte ≠ small := by
    rintro rfl
    exact absurd isLarge (UInt8.not_le.mpr isSmall)
  rw [escapeByte, if_neg (other 34 (by decide)), if_neg (other 92 (by decide)),
    if_neg (other 10 (by decide)), if_neg (other 13 (by decide)), if_neg (other 9 (by decide))]

/-- Characters are escaped as their bytes are. -/
theorem escapeChar_bytes (char : Char) :
    (escapeChar char).flatMap String.utf8EncodeChar =
      (String.utf8EncodeChar char).flatMap escapeByte := by
  fun_cases escapeChar char with
  | case6 =>
      rename_i quote backslash feed ret tab
      rw [List.flatMap_singleton]
      rcases utf8EncodeChar_cases char with ⟨isAscii, isByte⟩ | ⟨-, areLarge⟩
      · have isChar (byte : UInt8) (same : UInt8.ofNat char.toNat = byte) :
            char = Char.ofNat byte.toNat := by
          rw [← same, UInt8.toNat_ofNat_of_lt' (isAscii.trans (by decide)), Char.ofNat_toNat]
        rw [isByte, List.flatMap_singleton, escapeByte,
          if_neg fun same => quote (isChar 34 same),
          if_neg fun same => backslash (isChar 92 same),
          if_neg fun same => feed (isChar 10 same),
          if_neg fun same => ret (isChar 13 same),
          if_neg fun same => tab (isChar 9 same)]
      · have unchanged : ∀ bytes : Bytes, (∀ byte ∈ bytes, 128 ≤ byte) →
            bytes.flatMap escapeByte = bytes := by
          intro bytes areLarge
          induction bytes with
          | nil => rfl
          | cons byte bytes ih =>
              rw [List.flatMap_cons, escapeByte_of_large (areLarge byte List.mem_cons_self),
                ih fun other isOther => areLarge other (List.mem_cons_of_mem _ isOther)]
              rfl
        exact (unchanged _ areLarge).symm
  | _ => decide

/-- A string is written with its bytes escaped, in quotes. -/
theorem stringText_eq {bytes : Bytes} (isText : (fromUtf8 bytes).isSome) :
    stringText ((fromUtf8 bytes).getD "") = 34 :: bytes.flatMap escapeByte ++ [34] := by
  obtain ⟨text, decoded⟩ := Option.isSome_iff_exists.mp isText
  have isBytes := asBytes_of_fromUtf8 decoded
  rw [decoded, Option.getD_some, stringText, asBytes_ofList, ← isBytes, asBytes_eq_flatMap,
    List.flatMap_assoc, List.flatMap_assoc]
  congr 2
  exact List.flatMap_congr fun char _ => escapeChar_bytes char

/-! ## Strings -/

/-- The byte stands in a text of JSON as it is written: it is no control
character, or one of those that are escaped. -/
def PlainByte (byte : UInt8) : Prop := 32 ≤ byte ∨ byte = 9 ∨ byte = 10 ∨ byte = 13

/-- The bytes of a string that is read back. -/
def PlainBytes (bytes : Bytes) : Prop := ∀ byte ∈ bytes, PlainByte byte

theorem parseStringLoop_simple
    {esc byte : UInt8} (isEscape : simpleEscape esc = some byte) (rest : Bytes) :
    parseStringLoop (92 :: esc :: rest) =
      (parseStringLoop rest).map fun (out, rest) => (byte :: out, rest) := by
  have notUnicode : esc ≠ 117 := by
    rintro rfl
    cases isEscape
  rw [parseStringLoop]
  · rw [isEscape]
    rfl
  · rintro a b c d rest' same
    exact absurd same notUnicode

theorem parseStringLoop_other
    {byte : UInt8} (notQuote : byte ≠ 34) (notBackslash : byte ≠ 92) (rest : Bytes) :
    parseStringLoop (byte :: rest) =
      if byte < 0x20 then none
      else (parseStringLoop rest).map fun (out, rest) => (byte :: out, rest) := by
  rw [parseStringLoop]
  · simp only [notBackslash, or_false]
  · exact notQuote
  · rintro a b c d rest' rfl
    exact absurd rfl notBackslash
  · rintro esc rest' rfl
    exact absurd rfl notBackslash

/-- A plain byte is read back from its text. -/
theorem parseStringLoop_escapeByte {byte : UInt8} (plain : PlainByte byte) (rest : Bytes) :
    parseStringLoop (escapeByte byte ++ rest) =
      (parseStringLoop rest).map fun (out, rest) => (byte :: out, rest) := by
  rw [escapeByte]
  split
  · rename_i isQuote
    rw [isQuote]
    exact parseStringLoop_simple rfl rest
  · rename_i notQuote
    split
    · rename_i isBackslash
      rw [isBackslash]
      exact parseStringLoop_simple rfl rest
    · rename_i notBackslash
      split
      · rename_i isFeed
        rw [isFeed]
        exact parseStringLoop_simple rfl rest
      · rename_i notFeed
        split
        · rename_i isReturn
          rw [isReturn]
          exact parseStringLoop_simple rfl rest
        · rename_i notReturn
          split
          · rename_i isTab
            rw [isTab]
            exact parseStringLoop_simple rfl rest
          · rename_i notTab
            rw [List.singleton_append, parseStringLoop_other notQuote notBackslash, if_neg]
            rcases plain with isLarge | rfl | rfl | rfl
            · exact UInt8.not_lt.mpr isLarge
            · exact absurd rfl notTab
            · exact absurd rfl notFeed
            · exact absurd rfl notReturn

/-- A plain string is read back. -/
theorem parseStringLoop_plain {bytes : Bytes} (plain : PlainBytes bytes) (rest : Bytes) :
    parseStringLoop (bytes.flatMap escapeByte ++ 34 :: rest) = some (bytes, rest) := by
  induction bytes with
  | nil => rw [List.flatMap_nil, List.nil_append, parseStringLoop]
  | cons byte bytes ih =>
      rw [List.flatMap_cons, List.append_assoc,
        parseStringLoop_escapeByte (plain byte List.mem_cons_self),
        ih fun other isOther => plain other (List.mem_cons_of_mem _ isOther)]
      rfl

/-- Any other string is rejected. -/
theorem parseStringLoop_not_plain {bytes : Bytes} (notPlain : ¬PlainBytes bytes) (rest : Bytes) :
    parseStringLoop (bytes.flatMap escapeByte ++ rest) = none := by
  induction bytes with
  | nil => exact absurd (fun _ isByte => absurd isByte List.not_mem_nil) notPlain
  | cons byte bytes ih =>
      rw [List.flatMap_cons, List.append_assoc]
      by_cases plain : PlainByte byte
      · rw [parseStringLoop_escapeByte plain, ih]
        · rfl
        · intro plainRest
          exact notPlain (List.forall_mem_cons.mpr ⟨plain, plainRest⟩)
      · rw [PlainByte, not_or, not_or, not_or, UInt8.not_le] at plain
        obtain ⟨isSmall, notTab, notFeed, notReturn⟩ := plain
        have notQuote : byte ≠ 34 := by
          rintro rfl
          exact absurd isSmall (by decide)
        have notBackslash : byte ≠ 92 := by
          rintro rfl
          exact absurd isSmall (by decide)
        rw [escapeByte, if_neg notQuote, if_neg notBackslash, if_neg notFeed, if_neg notReturn,
          if_neg notTab, List.singleton_append, parseStringLoop_other notQuote notBackslash,
          if_pos isSmall]

/-- The bytes of a key that is read back: keys are written as they are. -/
def PlainKey (key : Bytes) : Prop := ∀ byte ∈ key, 32 ≤ byte ∧ byte ≠ 34 ∧ byte ≠ 92

theorem parseStringLoop_key {key : Bytes} (plain : PlainKey key) (rest : Bytes) :
    parseStringLoop (key ++ 34 :: rest) = some (key, rest) := by
  induction key with
  | nil => rw [List.nil_append, parseStringLoop]
  | cons byte key ih =>
      obtain ⟨isLarge, notQuote, notBackslash⟩ := plain byte List.mem_cons_self
      rw [List.cons_append, parseStringLoop_other notQuote notBackslash,
        if_neg (UInt8.not_lt.mpr isLarge),
        ih fun other isOther => plain other (List.mem_cons_of_mem _ isOther)]
      rfl

/-! ## Numbers -/

/-- What may follow a value: nothing, a comma or a closing bracket. -/
def Follows (rest : Bytes) : Prop :=
  ∀ byte, rest.head? = some byte → byte = 44 ∨ byte = 93 ∨ byte = 125

/-- The decimal text of a number is text. -/
theorem isText_natBytes (value : ℕ) : (fromUtf8 (natBytes value)).isSome := by
  have isAscii : natBytes value = asBytes (String.ofList (Nat.toDigits 10 value)) := by
    rw [asBytes_ofList, natBytes, List.map_eq_flatMap]
    refine List.flatMap_congr fun digit isDigit => ?_
    have small := (Cache.isAsciiDigit_of_isDigit (Cache.isDigit_of_mem_decimal isDigit)).2
    rcases utf8EncodeChar_cases digit with ⟨-, isByte⟩ | ⟨isLarge, -⟩
    · exact isByte.symm
    · have isChar := Cache.isDigit_of_mem_decimal isDigit
      rw [Char.isDigit, Bool.and_eq_true, decide_eq_true_eq, decide_eq_true_eq] at isChar
      have isSmall : digit.toNat ≤ 57 := isChar.2
      omega
  rw [isAscii, Cache.fromUtf8_asBytes]
  rfl

/-- A number larger than zero does not start with the digit zero. -/
theorem head_toDigits {value : ℕ} (positive : 0 < value) :
    ∃ digit rest, Nat.toDigits 10 value = digit :: rest ∧ digit ≠ '0' := by
  induction value using Nat.strongRecOn with
  | ind value ih =>
      by_cases isDigit : value < 10
      · refine ⟨value.digitChar, [], Nat.toDigits_of_lt_base isDigit, ?_⟩
        interval_cases value <;> decide
      · obtain ⟨digit, rest, isHead, notZero⟩ := ih (value / 10) (by omega) (by omega)
        refine ⟨digit, rest ++ [(value % 10).digitChar], ?_, notZero⟩
        rw [Nat.toDigits_of_base_le (by decide) (by omega), isHead, List.cons_append]

theorem span_digits {digits rest : Bytes} (areDigits : ∀ byte ∈ digits, isAsciiDigit byte = true)
    (notDigit : ∀ byte, rest.head? = some byte → isAsciiDigit byte = false) :
    (digits ++ rest).span isAsciiDigit = (digits, rest) := by
  obtain ⟨isRun, isRest⟩ := takeWhile_append_of_all (List.all_eq_true.mpr areDigits) notDigit
  rw [List.span_eq_takeWhile_dropWhile, isRun, isRest]

theorem Follows.not_digit {rest : Bytes} (follows : Follows rest) :
    ∀ byte, rest.head? = some byte → isAsciiDigit byte = false := by
  intro byte isHead
  rcases follows byte isHead with rfl | rfl | rfl <;> decide

theorem areDigits_natBytes (value : ℕ) : ∀ byte ∈ natBytes value, isAsciiDigit byte = true := by
  intro byte isByte
  obtain ⟨digit, isDigit, rfl⟩ := List.mem_map.mp isByte
  exact (Cache.isAsciiDigit_of_isDigit (Cache.isDigit_of_mem_decimal isDigit)).2

/-- The decimal text of a natural number is taken as a whole. -/
theorem takeInteger_natBytes (value : ℕ) {rest : Bytes} (follows : Follows rest) :
    takeInteger (natBytes value ++ rest) = some (natBytes value, rest) := by
  by_cases isZero : value = 0
  · rw [isZero]
    rfl
  · obtain ⟨digit, others, isText, notZero⟩ := head_toDigits (Nat.pos_of_ne_zero isZero)
    have isBytes : natBytes value =
        UInt8.ofNat digit.toNat :: others.map fun digit => UInt8.ofNat digit.toNat := by
      rw [natBytes, isText, List.map_cons]
    have notZeroByte : UInt8.ofNat digit.toNat ≠ 48 := by
      intro same
      have isDigit : digit ∈ Nat.toDigits 10 value := by
        rw [isText]
        exact List.mem_cons_self
      have isByte := (Cache.isAsciiDigit_of_isDigit (Cache.isDigit_of_mem_decimal isDigit)).1
      rw [same] at isByte
      exact notZero (Char.ext (UInt32.toNat_inj.mp isByte.symm))
    have spanned := span_digits (areDigits_natBytes value) follows.not_digit
    rw [isBytes, List.cons_append] at spanned ⊢
    rw [takeInteger]
    · rw [takeDigits, spanned]
    · intro rest' same
      exact notZeroByte (List.cons.inj same).1

theorem takeFraction_of_follows {rest : Bytes} (follows : Follows rest) :
    takeFraction rest = some ([], rest) := by
  cases rest with
  | nil => rfl
  | cons byte rest =>
      rcases follows byte rfl with rfl | rfl | rfl <;> rfl

theorem takeExponent_of_follows {rest : Bytes} (follows : Follows rest) :
    takeExponent rest = some ([], rest) := by
  cases rest with
  | nil => rfl
  | cons byte rest =>
      rcases follows byte rfl with rfl | rfl | rfl <;> rfl

/-- The text of an integer is taken as a whole. -/
theorem takeNumber_i32Bytes (n : Int32) {rest : Bytes} (follows : Follows rest) :
    takeNumber (i32Bytes n ++ rest) = some (i32Bytes n, rest) := by
  have unsigned := takeInteger_natBytes n.toInt.natAbs follows
  rw [i32Bytes]
  split
  · rw [List.cons_append, takeNumber]
    dsimp only
    rw [unsigned, Option.bind_some, takeFraction_of_follows follows, Option.bind_some,
      takeExponent_of_follows follows, Option.map_some, List.append_nil, List.append_nil,
      List.singleton_append]
  · obtain ⟨digit, others, isText, isDigit, -⟩ := natBytes_spec n.toInt.natAbs
    have notMinus : digit ≠ 45 := by
      rintro rfl
      cases isDigit
    have isPlain : takeNumber (digit :: others ++ rest) =
        (takeInteger (digit :: others ++ rest)).bind fun (whole, input) =>
          (takeFraction input).bind fun (fraction, input) =>
            (takeExponent input).map fun (exponent, input) =>
              ([] ++ whole ++ fraction ++ exponent, input) := by
      rw [List.cons_append, takeNumber]
      intro rest' same
      exact absurd (List.cons.inj same).1 notMinus
    rw [isText] at unsigned ⊢
    rw [isPlain, unsigned, Option.bind_some]
    dsimp only
    rw [takeFraction_of_follows follows, Option.bind_some]
    dsimp only
    rw [takeExponent_of_follows follows, Option.map_some, List.append_nil, List.append_nil,
      List.nil_append]

/-- The significand of an integer has 53 bits. -/
theorem two_pow_le_shifted {value : ℕ} (positive : 0 < value) (small : value < 2 ^ 52) :
    2 ^ 52 ≤ value * 2 ^ (52 - Nat.log2 value) ∧
      value * 2 ^ (52 - Nat.log2 value) < 2 ^ 53 := by
  have isLog : Nat.log2 value < 52 := (Nat.log2_lt positive.ne').mpr small
  constructor
  · calc 2 ^ 52 = 2 ^ Nat.log2 value * 2 ^ (52 - Nat.log2 value) := by
          rw [← Nat.pow_add]
          congr 1
          omega
      _ ≤ value * 2 ^ (52 - Nat.log2 value) :=
          Nat.mul_le_mul_right _ (Nat.log2_self_le positive.ne')
  · calc value * 2 ^ (52 - Nat.log2 value)
        < 2 ^ (Nat.log2 value + 1) * 2 ^ (52 - Nat.log2 value) :=
          Nat.mul_lt_mul_of_pos_right Nat.lt_log2_self (Nat.two_pow_pos _)
      _ = 2 ^ 53 := by
          rw [← Nat.pow_add]
          congr 1
          omega

/-- An integer below `2 ^ 52` is its own nearest representable number, whose
significand is the integer shifted to 53 bits. -/
theorem roundRatio_one {value : ℕ} (positive : 0 < value) (small : value < 2 ^ 52) :
    F64.roundRatio value 1 =
      (Nat.log2 value + 1022) * 2 ^ 52 + value * 2 ^ (52 - Nat.log2 value) := by
  have reaches : 2 ^ Nat.log2 value ≤ value := Nat.log2_self_le positive.ne'
  have isLog : Nat.log2 value < 52 := (Nat.log2_lt positive.ne').mpr small
  have isScale : max (-1074) ((Nat.log2 value : ℤ) - 52) = -((52 - Nat.log2 value : ℕ) : ℤ) := by
    omega
  unfold F64.roundRatio
  rw [if_neg positive.ne']
  dsimp only
  rw [show Nat.log2 1 = 0 from rfl, Int.ofNat_zero, sub_zero, if_pos (Int.natCast_nonneg _),
    Int.toNat_natCast, one_mul, decide_eq_true reaches, if_pos rfl, isScale, if_neg (by omega),
    neg_neg, Int.toNat_natCast, F64.roundHalfEven, Nat.div_one, Nat.mod_one, mul_zero,
    if_pos Nat.zero_lt_one]
  have isField : (-((52 - Nat.log2 value : ℕ) : ℤ) + 1074).toNat = Nat.log2 value + 1022 := by
    omega
  have isShifted := (two_pow_le_shifted positive small).2
  rw [isField, min_eq_right]
  rw [F64.infinityBits]
  omega

theorem natAbs_toInt_lt (n : Int32) : n.toInt.natAbs < 2 ^ 52 := by
  have atLeast := Int32.le_toInt n
  have lessThan := Int32.toInt_lt n
  omega

theorem roundRatio_toInt_lt (n : Int32) :
    F64.roundRatio n.toInt.natAbs 1 < F64.infinityBits := by
  by_cases isZero : n.toInt.natAbs = 0
  · rw [isZero]
    decide
  · have isLog : Nat.log2 n.toInt.natAbs < 52 := (Nat.log2_lt isZero).mpr (natAbs_toInt_lt n)
    have shifted := (two_pow_le_shifted (Nat.pos_of_ne_zero isZero) (natAbs_toInt_lt n)).2
    rw [roundRatio_one (Nat.pos_of_ne_zero isZero) (natAbs_toInt_lt n), F64.infinityBits]
    omega

/-- The bits of an `i32` as `f64`. -/
theorem toNat_bits_i32AsF64 (n : Int32) :
    (i32AsF64 n).bits.toNat =
      (if n.toInt < 0 then 2 ^ 63 else 0) + F64.roundRatio n.toInt.natAbs 1 := by
  have inRange := roundRatio_toInt_lt n
  rw [F64.infinityBits] at inRange
  rw [i32AsF64, F64.ofMagnitude]
  by_cases negative : n.toInt < 0
  · rw [decide_eq_true negative, if_pos rfl, if_pos negative]
    exact UInt64.toNat_ofNat_of_lt' (show _ < 2 ^ 64 by omega)
  · rw [decide_eq_false negative, if_neg Bool.false_ne_true, if_neg negative, zero_add]
    exact UInt64.toNat_ofNat_of_lt' (show _ < 2 ^ 64 by omega)

theorem magnitude_i32AsF64 (n : Int32) :
    (i32AsF64 n).magnitude = F64.roundRatio n.toInt.natAbs 1 := by
  have inRange := roundRatio_toInt_lt n
  rw [F64.infinityBits] at inRange
  rw [F64.magnitude, toNat_bits_i32AsF64]
  split <;> omega

theorem isFinite_i32AsF64 (n : Int32) : isFinite (i32AsF64 n) = true := by
  rw [isFinite, magnitude_i32AsF64]
  exact decide_eq_true (roundRatio_toInt_lt n)

/-- An `i32` survives the way to `f64` and back. -/
theorem asI32_i32AsF64 (n : Int32) : asI32 (i32AsF64 n) = n := by
  have atLeast := Int32.le_toInt n
  have lessThan := Int32.toInt_lt n
  have notNan : (i32AsF64 n).isNan = false := by
    rw [F64.isNan, magnitude_i32AsF64]
    exact decide_eq_false (not_lt.mpr (roundRatio_toInt_lt n).le)
  have isSign : (i32AsF64 n).bits.toNat < 2 ^ 63 ↔ ¬n.toInt < 0 := by
    have inRange := roundRatio_toInt_lt n
    rw [F64.infinityBits] at inRange
    rw [toNat_bits_i32AsF64]
    split <;> omega
  have isWhole (whole : ℕ) (isAbs : whole = n.toInt.natAbs) :
      Int32.ofInt (max (-2 ^ 31) (min (2 ^ 31 - 1)
        (if (i32AsF64 n).bits.toNat < 2 ^ 63 then (whole : ℤ) else -whole))) = n := by
    have isNumber : (if (i32AsF64 n).bits.toNat < 2 ^ 63 then (whole : ℤ) else -whole) =
        n.toInt := by
      by_cases negative : n.toInt < 0
      · rw [if_neg (by rwa [isSign, not_not]), isAbs]
        omega
      · rw [if_pos (isSign.mpr negative), isAbs]
        omega
    rw [isNumber, min_eq_right (by omega), max_eq_right (by omega), Int32.ofInt_toInt]
  unfold asI32
  rw [notNan, if_neg Bool.false_ne_true, magnitude_i32AsF64]
  refine isWhole _ ?_
  by_cases isZero : n.toInt.natAbs = 0
  · have isNothing : F64.roundRatio 0 1 = 0 := rfl
    rw [isZero, isNothing, Nat.zero_div, Nat.zero_mod, if_pos rfl, if_neg (by decide),
      Nat.add_zero, Nat.zero_div]
  · have positive := Nat.pos_of_ne_zero isZero
    have isLog : Nat.log2 n.toInt.natAbs < 52 := (Nat.log2_lt isZero).mpr (natAbs_toInt_lt n)
    obtain ⟨low, high⟩ := two_pow_le_shifted positive (natAbs_toInt_lt n)
    rw [roundRatio_one positive (natAbs_toInt_lt n)]
    generalize isShifted : n.toInt.natAbs * 2 ^ (52 - Nat.log2 n.toInt.natAbs) = shifted at low high
    have isExponent : ((Nat.log2 n.toInt.natAbs + 1022) * 2 ^ 52 + shifted) / 2 ^ 52 =
        Nat.log2 n.toInt.natAbs + 1023 := by
      omega
    have isFraction : ((Nat.log2 n.toInt.natAbs + 1022) * 2 ^ 52 + shifted) % 2 ^ 52 + 2 ^ 52 =
        shifted := by
      omega
    rw [isExponent, if_neg (by omega : ¬Nat.log2 n.toInt.natAbs + 1023 = 0), isFraction,
      if_neg (by omega), max_eq_left (by omega), ← isShifted,
      show 1075 - (Nat.log2 n.toInt.natAbs + 1023) = 52 - Nat.log2 n.toInt.natAbs by omega,
      Nat.mul_div_cancel _ (Nat.two_pow_pos _)]

/-- An `i32` is made of its own value as `f64`. -/
theorem numberToValue_i32AsF64 (ctx : Context) (n : Int32) :
    ctx.numberToValue (i32AsF64 n) = (.int n, ctx) := by
  have notNan : (i32AsF64 n).isNan = false := by
    rw [F64.isNan, magnitude_i32AsF64]
    exact decide_eq_false (not_lt.mpr (roundRatio_toInt_lt n).le)
  have isEqual : (i32AsF64 n).partialCmp (i32AsF64 n) = some .eq := by
    rw [F64.partialCmp, notNan, Bool.or_self, if_neg Bool.false_ne_true, compare_eq_iff_eq.mpr rfl]
  have isPositive : (i32AsF64 n).key ≠ 0 ∨ (i32AsF64 n).bits.toNat < 2 ^ 63 := by
    by_cases isSmall : (i32AsF64 n).bits.toNat < 2 ^ 63
    · exact .inr isSmall
    · refine .inl ?_
      have negative : n.toInt < 0 := by
        by_contra positive
        have inRange := roundRatio_toInt_lt n
        rw [F64.infinityBits] at inRange
        rw [toNat_bits_i32AsF64, if_neg positive] at isSmall
        omega
      have notZero : n.toInt.natAbs ≠ 0 := by omega
      have shifted := (two_pow_le_shifted (Nat.pos_of_ne_zero notZero) (natAbs_toInt_lt n)).1
      rw [F64.key, if_neg isSmall, magnitude_i32AsF64,
        roundRatio_one (Nat.pos_of_ne_zero notZero) (natAbs_toInt_lt n)]
      omega
  rw [Context.numberToValue, asI32_i32AsF64, if_pos ⟨isEqual, isPositive⟩]

/-- The text of an `i32` as `f64` is its decimal text. -/
theorem numberText_i32AsF64 (display : F64 → Bytes) (n : Int32) :
    numberText display (i32AsF64 n) = i32Bytes n := by
  rw [numberText, asI32_i32AsF64, if_pos rfl]

/-- An `i32` is read from its decimal text. -/
theorem parseF64_i32Bytes (n : Int32) : parseF64 (i32Bytes n) = some (i32AsF64 n) := by
  obtain ⟨digit, others, isText, isDigit, isValue⟩ := natBytes_spec n.toInt.natAbs
  have isMagnitude : F64.parseMagnitude (natBytes n.toInt.natAbs) =
      some (F64.roundRatio n.toInt.natAbs 1) := by
    have atLeast := Int32.le_toInt n
    have lessThan := Int32.toInt_lt n
    have isShort : (Nat.toDigits 10 n.toInt.natAbs).length ≤ 10 := by
      rw [Nat.length_toDigits_le_iff (by decide) (by decide)]
      omega
    have isSpan : F64.spanDigits (natBytes n.toInt.natAbs) = (natBytes n.toInt.natAbs, []) := by
      have spanned := span_digits (areDigits_natBytes n.toInt.natAbs)
        (show ∀ byte, ([] : Bytes).head? = some byte → isAsciiDigit byte = false from (fun _ isHead => by cases isHead))
      rwa [List.append_nil] at spanned
    have isDecimal : digitsValue (natBytes n.toInt.natAbs) = some n.toInt.natAbs := by
      rw [isText, digitsValue]
      · exact isValue
      · exact List.cons_ne_nil digit others
    have isNumber : F64.parseNumber (natBytes n.toInt.natAbs) =
        some (F64.roundDecimal n.toInt.natAbs (Nat.toDigits 10 n.toInt.natAbs).length 0) := by
      rw [F64.parseNumber, isSpan]
      dsimp only
      rw [List.append_nil, isDecimal]
      rfl
    have isRounded : F64.roundDecimal n.toInt.natAbs (Nat.toDigits 10 n.toInt.natAbs).length 0 =
        F64.roundRatio n.toInt.natAbs 1 := by
      rw [F64.roundDecimal]
      split
      · rename_i isZero
        rw [isZero]
        rfl
      · rw [if_neg (by omega), if_neg (by omega), if_pos (le_refl _), Int.toNat_zero, Nat.pow_zero,
          Nat.mul_one]
    rw [F64.parseMagnitude, isNumber, isRounded]
  have notSign : digit ≠ 45 ∧ digit ≠ 43 := by
    constructor
    · rintro rfl
      cases isDigit
    · rintro rfl
      cases isDigit
  rw [i32Bytes, i32AsF64]
  by_cases negative : n.toInt < 0
  · rw [if_pos negative, parseF64, isMagnitude, decide_eq_true negative]
    rfl
  · rw [if_neg negative, decide_eq_false negative]
    rw [isText] at isMagnitude ⊢
    rw [parseF64]
    · rw [isMagnitude]
      rfl
    · intro rest same
      exact notSign.1 (List.cons.inj same).1
    · intro rest same
      exact notSign.2 (List.cons.inj same).1

end Json
end Script
end MuonJs
