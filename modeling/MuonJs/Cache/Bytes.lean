import Mathlib

/-!
# Byte strings and the numbers written in them

Keys, values and protocol lines are byte strings.  This module has the
standard-library parsers and printers the cache calls on them: decimal `i64`,
`u64` and `usize`, ASCII upper case and the UTF-8 check, and the store's own
decimal parser.
-/

namespace MuonJs
namespace Cache

/-- A byte string (`Vec<u8>`, `Arc<[u8]>` or a borrowed `&[u8]`). -/
abbrev Bytes := List UInt8

instance : LawfulBEq Bytes := inferInstance

/-- The UTF-8 bytes of a text (`str::as_bytes`). -/
def asBytes (text : String) : Bytes := text.toUTF8.data.toList

/-- The text that the bytes encode (`std::str::from_utf8`). -/
def fromUtf8 (bytes : Bytes) : Option String :=
  String.fromUTF8? ⟨bytes.toArray⟩

@[simp] theorem fromUtf8_asBytes (text : String) :
    fromUtf8 (asBytes text) = some text := by
  have sameBytes : (⟨(asBytes text).toArray⟩ : ByteArray) = text.toByteArray := by
    simp [asBytes]
  unfold fromUtf8 String.fromUTF8?
  rw [sameBytes, dif_pos text.isValidUTF8]
  rfl

/-- Decoded bytes are the bytes of the text. -/
theorem asBytes_of_fromUtf8 {bytes : Bytes} {text : String}
    (decoded : fromUtf8 bytes = some text) : asBytes text = bytes := by
  unfold fromUtf8 String.fromUTF8? at decoded
  split at decoded
  · cases decoded
    rfl
  · cases decoded

theorem asBytes_eq_flatMap (text : String) :
    asBytes text = text.toList.flatMap String.utf8EncodeChar := by
  rw [asBytes, show text.toUTF8 = text.toByteArray from rfl,
    ← String.utf8Encode_toList, List.utf8Encode]
  simp

/-- Distinct texts have distinct bytes. -/
theorem asBytes_injective : Function.Injective asBytes := by
  intro left right same
  have decoded := congrArg fromUtf8 same
  rw [fromUtf8_asBytes, fromUtf8_asBytes] at decoded
  exact Option.some.inj decoded

/-- For the first byte of a longer sequence: how many continuation bytes
follow, and the range of the first of them. -/
def leadByte (byte : UInt8) : Option (ℕ × UInt8 × UInt8) :=
  if 0xC2 ≤ byte ∧ byte ≤ 0xDF then some (1, 0x80, 0xBF)
  else if byte = 0xE0 then some (2, 0xA0, 0xBF)
  else if byte = 0xED then some (2, 0x80, 0x9F)
  else if 0xE1 ≤ byte ∧ byte ≤ 0xEF then some (2, 0x80, 0xBF)
  else if byte = 0xF0 then some (3, 0x90, 0xBF)
  else if 0xF1 ≤ byte ∧ byte ≤ 0xF3 then some (3, 0x80, 0xBF)
  else if byte = 0xF4 then some (3, 0x80, 0x8F)
  else none

/-- The payload bits of the first byte of a sequence with `missing`
continuation bytes. -/
def leadBits (byte : UInt8) (missing : ℕ) : ℕ :=
  byte.toNat % 2 ^ (6 - missing)

/-- The characters of a lossy decoding.  `missing` continuation bytes of the
sequence begun are still to come, the next one between `low` and `high`; a
sequence that breaks off becomes one replacement character. -/
def lossyChars (code missing : ℕ) (low high : UInt8) : Bytes → List Char
  | [] => if missing = 0 then [] else ['\uFFFD']
  | byte :: rest =>
      if missing ≠ 0 ∧ low ≤ byte ∧ byte ≤ high then
        let code := code * 64 + byte.toNat % 64
        if missing = 1 then Char.ofNat code :: lossyChars 0 0 0 0 rest
        else lossyChars code (missing - 1) 0x80 0xBF rest
      else
        let broken := if missing = 0 then [] else ['\uFFFD']
        if byte < 0x80 then
          broken ++ Char.ofNat byte.toNat :: lossyChars 0 0 0 0 rest
        else
          match leadByte byte with
          | some (missing, low, high) =>
              broken ++ lossyChars (leadBits byte missing) missing low high rest
          | none => broken ++ '\uFFFD' :: lossyChars 0 0 0 0 rest

/-- `String::from_utf8_lossy`. -/
def fromUtf8Lossy (bytes : Bytes) : String :=
  String.ofList (lossyChars 0 0 0 0 bytes)

/-- `u8::to_ascii_uppercase`. -/
def toAsciiUppercaseByte (byte : UInt8) : UInt8 :=
  if 97 ≤ byte ∧ byte ≤ 122 then byte - 32 else byte

/-- `<[u8]>::to_ascii_uppercase`. -/
def toAsciiUppercase (bytes : Bytes) : Bytes := bytes.map toAsciiUppercaseByte

/-- `u8::is_ascii_digit`. -/
def isAsciiDigit (byte : UInt8) : Bool := 48 ≤ byte && byte ≤ 57

/-- `u8::is_ascii_whitespace`: space, tab, line feed, form feed, return. -/
def isAsciiWhitespace (byte : UInt8) : Bool :=
  byte == 32 || byte == 9 || byte == 10 || byte == 12 || byte == 13

/-- `<[Vec<u8>]>::sort`. -/
def sortBytes (items : List Bytes) : List Bytes :=
  items.insertionSort fun left right => compare left right ≠ .gt

/-- Value of a nonempty run of decimal digits continuing `value`. -/
def digitsFrom (value : Nat) : Bytes → Option Nat
  | [] => some value
  | digit :: rest =>
      if isAsciiDigit digit then
        digitsFrom (value * 10 + (digit.toNat - 48)) rest
      else none

/-- Value of a nonempty run of decimal digits. -/
def digitsValue : Bytes → Option Nat
  | [] => none
  | digits => digitsFrom 0 digits

/-- The integer when it lies in the range of `i64`. -/
def toI64 (value : Int) : Option Int64 :=
  if -2 ^ 63 ≤ value ∧ value < 2 ^ 63 then some (Int64.ofInt value) else none

/-- The number when it lies in the range of `u64`. -/
def toU64 (value : Nat) : Option UInt64 :=
  if value < 2 ^ 64 then some (UInt64.ofNat value) else none

/-- `str::parse::<i64>` on UTF-8 input: an optional sign and digits. -/
def parseI64 : Bytes → Option Int64
  | 45 :: digits => (digitsValue digits).bind fun value => toI64 (-value)
  | 43 :: digits => (digitsValue digits).bind fun value => toI64 value
  | digits => (digitsValue digits).bind fun value => toI64 value

/-- `str::parse::<u64>` on UTF-8 input: an optional `+` and digits. -/
def parseU64 : Bytes → Option UInt64
  | 43 :: digits => (digitsValue digits).bind toU64
  | digits => (digitsValue digits).bind toU64

/-- `str::parse::<usize>` on UTF-8 input, on a 64-bit target. -/
def parseUsize (input : Bytes) : Option Nat :=
  (parseU64 input).map UInt64.toNat

/-- Decimal digits of a natural number (`usize::to_string`). -/
def natBytes (value : Nat) : Bytes :=
  (Nat.toDigits 10 value).map fun digit => UInt8.ofNat digit.toNat

/-- Decimal text of an `i64` (`i64::to_string`, and `write_i64_bytes`). -/
def writeI64Bytes (value : Int64) : Bytes :=
  if value.toInt < 0 then 45 :: natBytes value.toInt.natAbs
  else natBytes value.toInt.natAbs

namespace Store

/-- The digit loop of the store's `parse_i64_bytes`: it stops with an error as
soon as the value exceeds `i64::MAX + 1`. -/
def parseI64Loop (value : Int) : Bytes → Option Int
  | [] => some value
  | byte :: rest =>
      if byte < 48 || byte > 57 then none
      else
        let value := value * 10 + (byte.toNat - 48 : Nat)
        if value > 2 ^ 63 then none else parseI64Loop value rest

/-- The store's `parse_i64_bytes`: an optional sign and at least one digit,
computed in `i128` and range checked. -/
def parseI64Bytes (input : Bytes) : Option Int64 :=
  let (sign, digits) : Int × Bytes := match input with
    | 45 :: rest => (-1, rest)
    | 43 :: rest => (1, rest)
    | _ => (1, input)
  if digits.isEmpty then none
  else (parseI64Loop 0 digits).bind fun value => toI64 (sign * value)

end Store

/-- `i64::saturating_add`. -/
def saturatingAddI64 (left right : Int64) : Int64 :=
  Int64.ofInt (max (-2 ^ 63) (min (2 ^ 63 - 1) (left.toInt + right.toInt)))

/-- `u64::saturating_add`. -/
def saturatingAddU64 (left right : UInt64) : UInt64 :=
  UInt64.ofNat (min (2 ^ 64 - 1) (left.toNat + right.toNat))

/-- `u64::saturating_mul`. -/
def saturatingMulU64 (left right : UInt64) : UInt64 :=
  UInt64.ofNat (min (2 ^ 64 - 1) (left.toNat * right.toNat))

/-! ## Decimal texts read back -/

/-- The byte of a decimal digit. -/
theorem isAsciiDigit_of_isDigit {digit : Char} (isDigit : digit.isDigit = true) :
    (UInt8.ofNat digit.toNat).toNat = digit.toNat ∧
      isAsciiDigit (UInt8.ofNat digit.toNat) = true := by
  rw [Char.isDigit, Bool.and_eq_true, decide_eq_true_eq,
    decide_eq_true_eq] at isDigit
  have low : 48 ≤ digit.toNat := isDigit.1
  have high : digit.toNat ≤ 57 := isDigit.2
  have isByte : (UInt8.ofNat digit.toNat).toNat = digit.toNat :=
    UInt8.toNat_ofNat_of_lt' (high.trans_lt (by decide))
  refine ⟨isByte, ?_⟩
  rw [isAsciiDigit, Bool.and_eq_true, decide_eq_true_eq, decide_eq_true_eq,
    UInt8.le_iff_toNat_le, UInt8.le_iff_toNat_le, isByte]
  exact ⟨low, high⟩

theorem isDigit_of_mem_decimal {value : ℕ} {digit : Char}
    (isDigit : digit ∈ Nat.toDigits 10 value) : digit.isDigit = true :=
  Nat.isDigit_of_mem_toDigits (by decide) (by decide) isDigit

theorem digitsFrom_map_digits
    (value : ℕ) (digits : List Char)
    (areDigits : ∀ digit ∈ digits, digit.isDigit = true) :
    digitsFrom value (digits.map fun digit => UInt8.ofNat digit.toNat) =
      some (Nat.ofDigitChars 10 digits value) := by
  induction digits generalizing value with
  | nil => rfl
  | cons digit digits ih =>
      obtain ⟨isByte, isAscii⟩ :=
        isAsciiDigit_of_isDigit (areDigits digit List.mem_cons_self)
      rw [List.map_cons, digitsFrom, if_pos isAscii, isByte,
        ih _ fun other isOther => areDigits other (List.mem_cons_of_mem _ isOther),
        Nat.ofDigitChars_cons, Nat.mul_comm]
      rfl

/-- The decimal text of a number starts with a digit, and its value is the
number. -/
theorem natBytes_spec (value : ℕ) :
    ∃ digit rest, natBytes value = digit :: rest ∧ isAsciiDigit digit = true ∧
      digitsFrom 0 (digit :: rest) = some value := by
  have digits := digitsFrom_map_digits 0 (Nat.toDigits 10 value) fun digit =>
    isDigit_of_mem_decimal
  rw [Nat.ofDigitChars_ten_toDigits] at digits
  unfold natBytes
  cases nonempty : Nat.toDigits 10 value with
  | nil => exact absurd nonempty Nat.toDigits_ne_nil
  | cons digit rest =>
      rw [nonempty] at digits
      have isDigit : digit ∈ Nat.toDigits 10 value := by
        rw [nonempty]
        exact List.mem_cons_self
      exact ⟨_, _, rfl,
        (isAsciiDigit_of_isDigit (isDigit_of_mem_decimal isDigit)).2, digits⟩

theorem isAsciiDigit_of_digitsFrom
    {value total : ℕ} {byte : UInt8} {rest : Bytes}
    (isTotal : digitsFrom value (byte :: rest) = some total) :
    isAsciiDigit byte = true ∧
      digitsFrom (value * 10 + (byte.toNat - 48)) rest = some total := by
  rw [digitsFrom] at isTotal
  split at isTotal
  · rename_i isDigit
    exact ⟨isDigit, isTotal⟩
  · cases isTotal

/-- More digits do not make a number smaller. -/
theorem le_of_digitsFrom {value total : ℕ} {digits : Bytes}
    (isTotal : digitsFrom value digits = some total) : value ≤ total := by
  induction digits generalizing value with
  | nil =>
      rw [digitsFrom, Option.some.injEq] at isTotal
      exact isTotal.le
  | cons byte rest ih =>
      have larger := ih (isAsciiDigit_of_digitsFrom isTotal).2
      omega

/-- A number in the range of `usize` is read back from its decimal text. -/
theorem parseUsize_natBytes {value : ℕ} (inRange : value < 2 ^ 64) :
    parseUsize (natBytes value) = some value := by
  obtain ⟨digit, rest, isText, isDigit, isValue⟩ := natBytes_spec value
  have notPlus : digit ≠ 43 := by
    rintro rfl
    cases isDigit
  have parsed : parseU64 (digit :: rest) =
      (digitsValue (digit :: rest)).bind toU64 := by
    unfold parseU64
    split
    · rename_i same
      exact absurd (List.cons.inj same).1 notPlus
    · rfl
  rw [parseUsize, isText, parsed, digitsValue, isValue, Option.bind_some, toU64,
    if_pos inRange, Option.map_some]
  · rw [UInt64.toNat_ofNat_of_lt' inRange]
  · nofun

theorem natBytes_injective : Function.Injective natBytes := by
  intro left right same
  obtain ⟨digit, rest, isText, -, isValue⟩ := natBytes_spec left
  obtain ⟨digit', rest', isText', -, isValue'⟩ := natBytes_spec right
  rw [isText, isText', List.cons.injEq] at same
  rw [same.1, same.2, isValue'] at isValue
  exact (Option.some.inj isValue).symm

example : parseI64 (asBytes "-42") = some (-42) := by decide

example : Store.parseI64Bytes (writeI64Bytes (-9223372036854775808)) =
    some (-9223372036854775808) := by decide

end Cache
end MuonJs
