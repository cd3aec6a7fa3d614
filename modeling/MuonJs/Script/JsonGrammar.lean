import MuonJs.Script.JsonReading
import MuonJs.Script.StringToNumber
import MuonJs.Lib.Utf8

/-!
# The grammar of JSON texts

What RFC 8259 calls a JSON text, and the datum it denotes.  A grammar rule relates
the bytes from where it starts to what is left behind it, so that no rule depends on
what a reader does.  The rules for strings and numbers are followed by what
`parse_string_bytes` and `parse_number` make of them.
-/

namespace MuonJs
namespace Script

open Cache (Bytes F64 asBytes fromUtf8 parseF64 isAsciiDigit encode IsUtf8)

namespace Json

/-! ## Data -/

/-- What a JSON text denotes: a number by its sign and magnitude, an object by its
members as they are written. -/
inductive Datum
  | null
  | bool (truth : Bool)
  | number (negative : Bool) (magnitude : ℚ)
  | string (text : List Char)
  | array (items : List Datum)
  | object (members : List (List Char × Datum))

/-! ## White space -/

/-- `ws`: a space, a line feed, a carriage return or a tab. -/
def IsSpace (byte : UInt8) : Prop := byte = 32 ∨ byte = 10 ∨ byte = 13 ∨ byte = 9

instance (byte : UInt8) : Decidable (IsSpace byte) :=
  inferInstanceAs (Decidable (_ ∨ _ ∨ _ ∨ _))

/-- White space, and what is left behind it. -/
inductive IsBlank : Bytes → Bytes → Prop
  | none (rest : Bytes) : IsBlank rest rest
  | more {byte : UInt8} {input rest : Bytes} (isSpace : IsSpace byte)
      (blank : IsBlank input rest) : IsBlank (byte :: input) rest

/-! ## Strings -/

/-- A hexadecimal digit and its value. -/
def IsHexDigit (byte : UInt8) (digit : ℕ) : Prop :=
  (byte.toNat = 48 + digit ∧ digit < 10) ∨
    (10 ≤ digit ∧ digit < 16 ∧ (byte.toNat = 87 + digit ∨ byte.toNat = 55 + digit))

instance (byte : UInt8) (digit : ℕ) : Decidable (IsHexDigit byte digit) :=
  inferInstanceAs (Decidable ((_ ∧ _) ∨ (_ ∧ _ ∧ (_ ∨ _))))

/-- Four hexadecimal digits and the code unit they denote. -/
def IsCode (quad : Bytes) (code : ℕ) : Prop :=
  ∃ a b c d p q r s, quad = [a, b, c, d] ∧ IsHexDigit a p ∧ IsHexDigit b q ∧ IsHexDigit c r ∧
    IsHexDigit d s ∧ code = p * 16 ^ 3 + q * 16 ^ 2 + r * 16 + s

/-- The escapes of one letter. -/
def escapes : List (UInt8 × Char) :=
  [(34, '\"'), (92, '\\'), (47, '/'), (98, '\x08'), (102, '\x0c'), (110, '\n'), (114, '\r'),
    (116, '\t')]

/-- The characters of a string, from behind its opening quotation mark to behind the
closing one. -/
inductive IsChars : Bytes → List Char → Bytes → Prop
  | close (rest : Bytes) : IsChars (34 :: rest) [] rest
  | unescaped {char : Char} {input rest : Bytes} {text : List Char} (large : 32 ≤ char.toNat)
      (notQuote : char ≠ '\"') (notBackslash : char ≠ '\\') (chars : IsChars input text rest) :
      IsChars (String.utf8EncodeChar char ++ input) (char :: text) rest
  | escape {letter : UInt8} {char : Char} {input rest : Bytes} {text : List Char}
      (isEscape : (letter, char) ∈ escapes) (chars : IsChars input text rest) :
      IsChars (92 :: letter :: input) (char :: text) rest
  | unicode {quad input rest : Bytes} {code : ℕ} {text : List Char} (isCode : IsCode quad code)
      (notSurrogate : code < 0xD800 ∨ 0xDFFF < code) (chars : IsChars input text rest) :
      IsChars (92 :: 117 :: (quad ++ input)) (Char.ofNat code :: text) rest
  | pair {highQuad lowQuad input rest : Bytes} {high low : ℕ} {text : List Char}
      (isHighCode : IsCode highQuad high) (isHigh : 0xD800 ≤ high ∧ high ≤ 0xDBFF)
      (isLowCode : IsCode lowQuad low) (isLow : 0xDC00 ≤ low ∧ low ≤ 0xDFFF)
      (chars : IsChars input text rest) :
      IsChars (92 :: 117 :: (highQuad ++ 92 :: 117 :: (lowQuad ++ input)))
        (Char.ofNat (0x10000 + (high - 0xD800) * 0x400 + (low - 0xDC00)) :: text) rest

/-! ## Numbers -/

/-- `int`: zero, or digits of which the first is not zero. -/
def IsInteger (digits : Bytes) : Prop :=
  digits = [48] ∨ digits ≠ [] ∧ digits.head? ≠ some 48 ∧ digits.all isAsciiDigit = true

/-- `number`: a decimal literal with an integer part, digits behind a point, and a sign
that is a minus. -/
def IsNumber (text : Bytes) (negative : Bool) (magnitude : ℚ) : Prop :=
  ∃ literal : Decimal, text = (if negative then [45] else []) ++ literal.bytes ∧
    IsInteger literal.whole ∧ literal.fraction ≠ some [] ∧ magnitude = literal.value

/-! ## Values -/

mutual

/-- A value that starts with the first byte, and what is left behind it. -/
inductive IsValue : Bytes → Datum → Bytes → Prop
  | null (rest : Bytes) : IsValue (asBytes "null" ++ rest) .null rest
  | isFalse (rest : Bytes) : IsValue (asBytes "false" ++ rest) (.bool false) rest
  | isTrue (rest : Bytes) : IsValue (asBytes "true" ++ rest) (.bool true) rest
  | number {text : Bytes} {negative : Bool} {magnitude : ℚ}
      (isNumber : IsNumber text negative magnitude) (rest : Bytes) :
      IsValue (text ++ rest) (.number negative magnitude) rest
  | string {input rest : Bytes} {text : List Char} (chars : IsChars input text rest) :
      IsValue (34 :: input) (.string text) rest
  | emptyArray {input rest : Bytes} (blank : IsBlank input (93 :: rest)) :
      IsValue (91 :: input) (.array []) rest
  | array {input rest : Bytes} {items : List Datum} (elements : IsElements input items rest) :
      IsValue (91 :: input) (.array items) rest
  | emptyObject {input rest : Bytes} (blank : IsBlank input (125 :: rest)) :
      IsValue (123 :: input) (.object []) rest
  | object {input rest : Bytes} {members : List (List Char × Datum)}
      (isMembers : IsMembers input members rest) : IsValue (123 :: input) (.object members) rest

/-- The elements of an array up to its closing bracket, at least one. -/
inductive IsElements : Bytes → List Datum → Bytes → Prop
  | last {input start after rest : Bytes} {item : Datum} (before : IsBlank input start)
      (value : IsValue start item after) (behind : IsBlank after (93 :: rest)) :
      IsElements input [item] rest
  | more {input start after next rest : Bytes} {item : Datum} {items : List Datum}
      (before : IsBlank input start) (value : IsValue start item after)
      (behind : IsBlank after (44 :: next)) (elements : IsElements next items rest) :
      IsElements input (item :: items) rest

/-- The members of an object up to its closing brace, at least one. -/
inductive IsMembers : Bytes → List (List Char × Datum) → Bytes → Prop
  | last {input name colon value start after rest : Bytes} {key : List Char} {item : Datum}
      (beforeName : IsBlank input (34 :: name)) (chars : IsChars name key colon)
      (beforeColon : IsBlank colon (58 :: value)) (before : IsBlank value start)
      (isItem : IsValue start item after) (behind : IsBlank after (125 :: rest)) :
      IsMembers input [(key, item)] rest
  | more {input name colon value start after next rest : Bytes} {key : List Char}
      {item : Datum} {members : List (List Char × Datum)}
      (beforeName : IsBlank input (34 :: name)) (chars : IsChars name key colon)
      (beforeColon : IsBlank colon (58 :: value)) (before : IsBlank value start)
      (isItem : IsValue start item after) (behind : IsBlank after (44 :: next))
      (isMembers : IsMembers next members rest) : IsMembers input ((key, item) :: members) rest

end

/-- `JSON-text`: a value with white space around it. -/
def IsText (input : Bytes) (datum : Datum) : Prop :=
  ∃ start after, IsBlank input start ∧ IsValue start datum after ∧ IsBlank after []

/-! ## White space that is read -/

theorem isSpace_iff (byte : UInt8) :
    (byte = 32 || byte = 10 || byte = 13 || byte = 9) = true ↔ IsSpace byte := by
  simp only [Bool.or_eq_true, decide_eq_true_eq, IsSpace, or_assoc]

theorem isBlank_skipWs (input : Bytes) : IsBlank input (skipWs input) := by
  induction input with
  | nil => exact .none []
  | cons byte input ih =>
      by_cases isSpace : IsSpace byte
      · rw [skipWs, List.dropWhile_cons, if_pos ((isSpace_iff byte).mpr isSpace)]
        exact .more isSpace ih
      · rw [skipWs_cons (Bool.eq_false_iff.mpr fun space => isSpace ((isSpace_iff byte).mp space))]
        exact .none _

theorem IsBlank.skipWs_eq {input rest : Bytes} (blank : IsBlank input rest) :
    skipWs input = skipWs rest := by
  induction blank with
  | none rest => rfl
  | more isSpace _ ih =>
      rw [skipWs, List.dropWhile_cons, if_pos ((isSpace_iff _).mpr isSpace)]
      exact ih

/-- White space ends at a byte that is none. -/
theorem IsBlank.skipWs_solid {input rest : Bytes} {byte : UInt8}
    (blank : IsBlank input (byte :: rest)) (solid : Solid byte) :
    skipWs input = byte :: rest := by
  rw [blank.skipWs_eq, skipWs_cons solid]

theorem IsBlank.length_le {input rest : Bytes} (blank : IsBlank input rest) :
    rest.length ≤ input.length := by
  induction blank with
  | none rest => exact le_rfl
  | more _ _ ih => exact ih.trans (Nat.le_succ _)

theorem isUtf8_of_cons {byte : UInt8} {rest : Bytes} (isText : IsUtf8 (byte :: rest))
    (ascii : byte.toNat < 128) : IsUtf8 rest :=
  (IsUtf8.split (show IsUtf8 ([] ++ byte :: rest) from isText) ascii).2

theorem IsBlank.isUtf8 {input rest : Bytes} (blank : IsBlank input rest)
    (isText : IsUtf8 input) : IsUtf8 rest := by
  induction blank with
  | none rest => exact isText
  | more isSpace _ ih =>
      refine ih (isUtf8_of_cons isText ?_)
      rcases isSpace with rfl | rfl | rfl | rfl <;> decide

/-! ## Strings that are read -/

theorem hexVal_eq_some_iff (byte : UInt8) (digit : ℕ) :
    hexVal byte = some digit ↔ IsHexDigit byte digit := by
  unfold hexVal IsHexDigit
  simp only [UInt8.le_iff_toNat_le]
  have bounds : (48 : UInt8).toNat = 48 ∧ (57 : UInt8).toNat = 57 ∧ (97 : UInt8).toNat = 97 ∧
      (102 : UInt8).toNat = 102 ∧ (65 : UInt8).toNat = 65 ∧ (70 : UInt8).toNat = 70 := by decide
  simp only [bounds]
  split
  · rw [Option.some.injEq]
    omega
  · split
    · rw [Option.some.injEq]
      omega
    · split
      · rw [Option.some.injEq]
        omega
      · refine ⟨fun isSome => absurd isSome.symm (Option.some_ne_none _), fun isDigit => ?_⟩
        omega

theorem parseHex4_eq_some_iff (a b c d : UInt8) (code : ℕ) :
    parseHex4 [a, b, c, d] = some code ↔ IsCode [a, b, c, d] code := by
  simp only [parseHex4, List.foldlM_cons, List.foldlM_nil, Option.bind_eq_bind, Option.pure_def,
    Option.bind_eq_some_iff, Option.map_eq_some_iff, hexVal_eq_some_iff, Option.some.injEq]
  constructor
  · rintro ⟨_, ⟨p, isP, rfl⟩, _, ⟨q, isQ, rfl⟩, _, ⟨r, isR, rfl⟩, _, ⟨t, isT, rfl⟩, rfl⟩
    exact ⟨a, b, c, d, p, q, r, t, rfl, isP, isQ, isR, isT, by omega⟩
  · rintro ⟨a', b', c', d', p, q, r, t, same, isP, isQ, isR, isT, rfl⟩
    cases same
    exact ⟨_, ⟨p, isP, rfl⟩, _, ⟨q, isQ, rfl⟩, _, ⟨r, isR, rfl⟩, _, ⟨t, isT, rfl⟩, by omega⟩

theorem IsHexDigit.ascii {byte : UInt8} {digit : ℕ} (isDigit : IsHexDigit byte digit) :
    byte.toNat < 128 ∧ digit < 16 := by
  unfold IsHexDigit at isDigit
  omega

theorem IsCode.lt {quad : Bytes} {code : ℕ} (isCode : IsCode quad code) : code < 2 ^ 16 := by
  obtain ⟨a, b, c, d, p, q, r, t, -, isP, isQ, isR, isT, rfl⟩ := isCode
  have lt := And.intro isP.ascii.2 (And.intro isQ.ascii.2 (And.intro isR.ascii.2 isT.ascii.2))
  omega

/-- What is left behind four digits is text. -/
theorem IsCode.isUtf8 {quad rest : Bytes} {code : ℕ} (isCode : IsCode quad code)
    (isText : IsUtf8 (quad ++ rest)) : IsUtf8 rest := by
  obtain ⟨a, b, c, d, p, q, r, t, rfl, isP, isQ, isR, isT, -⟩ := isCode
  exact isUtf8_of_cons (isUtf8_of_cons (isUtf8_of_cons (isUtf8_of_cons isText isP.ascii.1)
    isQ.ascii.1) isR.ascii.1) isT.ascii.1

/-- A code point that is no surrogate is encoded as a character. -/
theorem encodeUtf8_of_scalar {code : ℕ} (scalar : code < 0xD800 ∨ 0xDFFF < code)
    (small : code < 0x110000) :
    encodeUtf8 code = some (String.utf8EncodeChar (Char.ofNat code)) := by
  have valid : code.isValidChar := by
    unfold Nat.isValidChar
    omega
  rw [encodeUtf8, dif_pos valid, Option.some.injEq, Cache.asBytes_eq_flatMap,
    String.toList_singleton, List.flatMap_singleton]
  refine congrArg String.utf8EncodeChar (Char.ext (UInt32.toNat_inj.mp ?_))
  change (UInt32.ofNat code).toNat = (Char.ofNat code).toNat
  rw [Char.toNat_ofNat, if_pos valid, UInt32.toNat_ofNat_of_lt' (show code < 2 ^ 32 by omega)]

/-- The escapes of one letter are those of the reader. -/
theorem simpleEscape_of_mem {letter : UInt8} {char : Char} (isEscape : (letter, char) ∈ escapes) :
    ∃ byte, simpleEscape letter = some byte ∧ String.utf8EncodeChar char = [byte] ∧
      letter.toNat < 128 := by
  simp only [escapes, List.mem_cons, List.not_mem_nil, or_false, Prod.mk.injEq] at isEscape
  rcases isEscape with ⟨rfl, rfl⟩ | ⟨rfl, rfl⟩ | ⟨rfl, rfl⟩ | ⟨rfl, rfl⟩ | ⟨rfl, rfl⟩ |
    ⟨rfl, rfl⟩ | ⟨rfl, rfl⟩ | ⟨rfl, rfl⟩ <;> exact ⟨_, rfl, by decide, by decide⟩

theorem exists_mem_escapes {letter byte : UInt8} (isEscape : simpleEscape letter = some byte) :
    ∃ char, (letter, char) ∈ escapes := by
  have isLetter : letter ∈ escapes.map Prod.fst := by
    by_contra notLetter
    simp only [escapes, List.map_cons, List.map_nil, List.mem_cons, List.not_mem_nil, or_false,
      not_or] at notLetter
    obtain ⟨not34, not92, not47, not98, not102, not110, not114, not116⟩ := notLetter
    rw [simpleEscape, if_neg (by simp [not34, not92, not47]), if_neg not98, if_neg not102,
      if_neg not110, if_neg not114, if_neg not116] at isEscape
    cases isEscape
  obtain ⟨⟨_, char⟩, isMember, rfl⟩ := List.mem_map.mp isLetter
  exact ⟨char, isMember⟩

theorem isHighSurrogate_iff (code : ℕ) :
    isHighSurrogate code = true ↔ 0xD800 ≤ code ∧ code ≤ 0xDBFF := by
  rw [isHighSurrogate, Bool.and_eq_true, decide_eq_true_eq, decide_eq_true_eq]

theorem isLowSurrogate_iff (code : ℕ) :
    isLowSurrogate code = true ↔ 0xDC00 ≤ code ∧ code ≤ 0xDFFF := by
  rw [isLowSurrogate, Bool.and_eq_true, decide_eq_true_eq, decide_eq_true_eq]

/-- Bytes that are not ASCII are read as they are. -/
theorem parseStringLoop_high {bytes : Bytes} (high : ∀ byte ∈ bytes, 128 ≤ byte.toNat)
    (rest : Bytes) :
    parseStringLoop (bytes ++ rest) =
      (parseStringLoop rest).map fun (out, rest) => (bytes ++ out, rest) := by
  induction bytes with
  | nil =>
      rw [List.nil_append]
      cases parseStringLoop rest <;> rfl
  | cons byte bytes ih =>
      have isHigh := high byte List.mem_cons_self
      have notSmall : ¬byte < 0x20 := by
        rw [UInt8.lt_iff_toNat_lt]
        change ¬byte.toNat < 32
        omega
      rw [List.cons_append, parseStringLoop_other (by rintro rfl; exact absurd isHigh (by decide))
        (by rintro rfl; exact absurd isHigh (by decide)), if_neg notSmall,
        ih fun other isOther => high other (List.mem_cons_of_mem _ isOther), Option.map_map]
      rfl

/-- What the loop makes of a unicode escape that is no surrogate. -/
theorem parseStringLoop_unicode {quad : Bytes} {code : ℕ} (isCode : IsCode quad code)
    (scalar : code < 0xD800 ∨ 0xDFFF < code) (rest : Bytes) :
    parseStringLoop (92 :: 117 :: (quad ++ rest)) =
      (parseStringLoop rest).map fun (out, rest) =>
        (String.utf8EncodeChar (Char.ofNat code) ++ out, rest) := by
  have small := isCode.lt
  have isRead := isCode
  obtain ⟨a, b, c, d, -, -, -, -, rfl, -⟩ := isCode
  have notHigh : ¬isHighSurrogate code = true := by
    rw [isHighSurrogate_iff]
    omega
  have notLow : ¬isLowSurrogate code = true := by
    rw [isLowSurrogate_iff]
    omega
  change parseStringLoop (92 :: 117 :: a :: b :: c :: d :: rest) = _
  rw [parseStringLoop, (parseHex4_eq_some_iff a b c d code).mpr isRead, Option.bind_some,
    if_neg notHigh, if_neg notLow, encodeUtf8_of_scalar scalar (by omega), Option.bind_some]

/-- What the loop makes of the escapes of a surrogate pair. -/
theorem parseStringLoop_pair {highQuad lowQuad : Bytes} {high low : ℕ}
    (isHighCode : IsCode highQuad high) (isHigh : 0xD800 ≤ high ∧ high ≤ 0xDBFF)
    (isLowCode : IsCode lowQuad low) (isLow : 0xDC00 ≤ low ∧ low ≤ 0xDFFF) (rest : Bytes) :
    parseStringLoop (92 :: 117 :: (highQuad ++ 92 :: 117 :: (lowQuad ++ rest))) =
      (parseStringLoop rest).map fun (out, rest) =>
        (String.utf8EncodeChar
          (Char.ofNat (0x10000 + (high - 0xD800) * 0x400 + (low - 0xDC00))) ++ out, rest) := by
  have isHighRead := isHighCode
  have isLowRead := isLowCode
  obtain ⟨a, b, c, d, -, -, -, -, rfl, -⟩ := isHighCode
  obtain ⟨e, f, g, h, -, -, -, -, rfl, -⟩ := isLowCode
  change parseStringLoop (92 :: 117 :: a :: b :: c :: d :: 92 :: 117 :: e :: f :: g :: h :: rest) = _
  rw [parseStringLoop, (parseHex4_eq_some_iff a b c d high).mpr isHighRead, Option.bind_some,
    if_pos ((isHighSurrogate_iff high).mpr isHigh)]
  split
  · rename_i same
    cases same
    rw [(parseHex4_eq_some_iff e f g h low).mpr isLowRead, Option.bind_some,
      if_pos ((isLowSurrogate_iff low).mpr isLow), ← Nat.add_assoc, encodeUtf8_of_scalar (by omega) (by omega), Option.bind_some]
  · rename_i other
    exact absurd rfl (other e f g h rest)

/-- An ASCII character is its code. -/
theorem toNat_asciiByte {char : Char} (ascii : char.toNat < 128) :
    (UInt8.ofNat char.toNat).toNat = char.toNat :=
  UInt8.toNat_ofNat_of_lt' (show char.toNat < 2 ^ 8 by omega)

theorem char_ne_of_toNat_ne {char other : Char} (differ : char ≠ other) :
    char.toNat ≠ other.toNat := fun same => differ (Char.ext (UInt32.toNat_inj.mp same))

/-- The characters of a string are read. -/
theorem IsChars.read {input rest : Bytes} {text : List Char} (chars : IsChars input text rest) :
    parseStringLoop input = some (encode text, rest) := by
  induction chars with
  | close rest => rfl
  | @unescaped char input rest text large notQuote notBackslash _ ih =>
      by_cases ascii : char.toNat < 128
      · have isCode := toNat_asciiByte ascii
        have different (other : UInt8) (code : other.toNat ≠ char.toNat) :
            UInt8.ofNat char.toNat ≠ other := by
          rintro rfl
          exact code isCode
        have notSmall : ¬UInt8.ofNat char.toNat < 0x20 := by
          rw [UInt8.lt_iff_toNat_lt, isCode]
          exact not_lt.mpr large
        rw [Cache.encode_cons, Cache.utf8EncodeChar_of_lt ascii, List.singleton_append,
          parseStringLoop_other (different 34 (char_ne_of_toNat_ne notQuote).symm)
            (different 92 (char_ne_of_toNat_ne notBackslash).symm), if_neg notSmall, ih]
        rfl
      · rw [parseStringLoop_high
          (fun _ isByte => Cache.le_of_mem_utf8EncodeChar (Nat.le_of_not_lt ascii) isByte), ih]
        rfl
  | escape isEscape _ ih =>
      obtain ⟨byte, isSimple, isByte, -⟩ := simpleEscape_of_mem isEscape
      rw [parseStringLoop_simple isSimple, ih, Option.map_some, Cache.encode_cons, isByte]
      rfl
  | unicode isCode notSurrogate _ ih =>
      rw [parseStringLoop_unicode isCode notSurrogate, ih]
      rfl
  | pair isHighCode isHigh isLowCode isLow _ ih =>
      rw [parseStringLoop_pair isHighCode isHigh isLowCode isLow, ih]
      rfl

/-- Text without ASCII characters goes before the characters of a string. -/
theorem IsChars.prepend {start : List Char} (high : ∀ char ∈ start, 128 ≤ char.toNat)
    {input rest : Bytes} {text : List Char} (chars : IsChars input text rest) :
    IsChars (encode start ++ input) (start ++ text) rest := by
  induction start with
  | nil => exact chars
  | cons char start ih =>
      have isHigh := high char List.mem_cons_self
      rw [Cache.encode_cons, List.append_assoc]
      refine .unescaped (by omega) ?_ ?_ (ih fun other isOther =>
        high other (List.mem_cons_of_mem _ isOther))
      · rintro rfl
        exact absurd isHigh (by decide)
      · rintro rfl
        exact absurd isHigh (by decide)

/-- Text whose bytes are not ASCII has no ASCII characters. -/
theorem exists_high_chars {bytes : Bytes} (isText : IsUtf8 bytes)
    (high : ∀ byte ∈ bytes, 128 ≤ byte.toNat) :
    ∃ chars, bytes = encode chars ∧ ∀ char ∈ chars, 128 ≤ char.toNat := by
  obtain ⟨chars, rfl⟩ := isText
  refine ⟨chars, rfl, fun char isChar => ?_⟩
  by_contra ascii
  have isByte : UInt8.ofNat char.toNat ∈ encode chars := by
    refine List.mem_flatMap.mpr ⟨char, isChar, ?_⟩
    rw [Cache.utf8EncodeChar_of_lt (not_le.mp ascii)]
    exact List.mem_singleton_self _
  have isHigh := high _ isByte
  rw [toNat_asciiByte (not_le.mp ascii)] at isHigh
  exact ascii isHigh

/-- An ASCII byte that is no control character is one character. -/
theorem IsChars.ascii {byte : UInt8} (ascii : byte.toNat < 128) (large : 32 ≤ byte.toNat)
    (notQuote : byte ≠ 34) (notBackslash : byte ≠ 92) {input rest : Bytes} {text : List Char}
    (chars : IsChars input text rest) :
    IsChars (byte :: input) (Char.ofNat byte.toNat :: text) rest ∧
      String.utf8EncodeChar (Char.ofNat byte.toNat) = [byte] := by
  have isCode : (Char.ofNat byte.toNat).toNat = byte.toNat := by
    rw [Char.toNat_ofNat, if_pos (.inl (by omega))]
  have isByte : String.utf8EncodeChar (Char.ofNat byte.toNat) = [byte] := by
    rw [Cache.utf8EncodeChar_of_lt (by omega), isCode, UInt8.ofNat_toNat]
  refine ⟨?_, isByte⟩
  have taken := @IsChars.unescaped (Char.ofNat byte.toNat) input rest text (by omega) ?_ ?_ chars
  · rw [isByte] at taken
    exact taken
  · intro same
    have code := congrArg Char.toNat same
    rw [isCode] at code
    exact notQuote (UInt8.toNat_inj.mp code)
  · intro same
    have code := congrArg Char.toNat same
    rw [isCode] at code
    exact notBackslash (UInt8.toNat_inj.mp code)

/-- What the loop has read, behind bytes that are not ASCII, are characters. -/
def Gathers (input out rest : Bytes) : Prop :=
  ∃ text, out = encode text ∧ IsChars input text rest ∧ IsUtf8 rest

/-- Bytes that are not ASCII are complete characters where an ASCII byte follows. -/
theorem Gathers.prepend {start input out rest : Bytes} {byte : UInt8}
    (high : ∀ byte ∈ start, 128 ≤ byte.toNat) (isText : IsUtf8 (start ++ byte :: input))
    (ascii : byte.toNat < 128) (gathers : Gathers (byte :: input) out rest) :
    Gathers (start ++ byte :: input) (start ++ out) rest := by
  obtain ⟨text, rfl, chars, isRest⟩ := gathers
  obtain ⟨startChars, rfl, highChars⟩ := exists_high_chars (isText.split ascii).1 high
  exact ⟨startChars ++ text, (Cache.encode_append _ _).symm, chars.prepend highChars, isRest⟩

theorem Gathers.escape {letter byte : UInt8} {input out rest : Bytes}
    (isEscape : simpleEscape letter = some byte) (gathers : Gathers input out rest) :
    Gathers (92 :: letter :: input) (byte :: out) rest := by
  obtain ⟨text, rfl, chars, isRest⟩ := gathers
  obtain ⟨char, isMember⟩ := exists_mem_escapes isEscape
  obtain ⟨byte', isSimple, isByte, -⟩ := simpleEscape_of_mem isMember
  obtain rfl : byte = byte' := Option.some.inj (isEscape.symm.trans isSimple)
  refine ⟨char :: text, ?_, .escape isMember chars, isRest⟩
  rw [Cache.encode_cons, isByte]
  rfl

theorem letter_ascii {letter byte : UInt8} (isEscape : simpleEscape letter = some byte) :
    letter.toNat < 128 := by
  obtain ⟨char, isMember⟩ := exists_mem_escapes isEscape
  obtain ⟨-, -, -, ascii⟩ := simpleEscape_of_mem isMember
  exact ascii

/-- Whatever the loop reads are the characters of a string.  Bytes that are not ASCII are
gathered until the character that they encode is complete. -/
theorem parseStringLoop_sound (input : Bytes) : ∀ (start : Bytes) {out rest : Bytes},
    (∀ byte ∈ start, 128 ≤ byte.toNat) → IsUtf8 (start ++ input) →
    parseStringLoop input = some (out, rest) → Gathers (start ++ input) (start ++ out) rest := by
  have alone : ∀ byte ∈ ([] : Bytes), 128 ≤ byte.toNat := fun _ isByte => by cases isByte
  fun_induction parseStringLoop input with
  | case1 =>
      intro start out rest _ _ isRead
      cases isRead
  | case2 rest =>
      intro start out rest high isText isRead
      cases isRead
      exact .prepend high isText (by decide) ⟨[], rfl, .close _, (isText.split (by decide)).2⟩
  | case3 a b c d input ihPair ih =>
      intro start out rest high isText isRead
      refine .prepend high isText (by decide) ?_
      have isRest : IsUtf8 (117 :: ([a, b, c, d] ++ input)) := (isText.split (by decide)).2
      obtain ⟨code, isCode, isRead⟩ := Option.bind_eq_some_iff.mp isRead
      rw [parseHex4_eq_some_iff] at isCode
      have isInput : IsUtf8 input := isCode.isUtf8 (isUtf8_of_cons isRest (by decide))
      split at isRead
      · rename_i isHigh
        rw [isHighSurrogate_iff] at isHigh
        split at isRead
        · rename_i e f g h tail _
          obtain ⟨low, isLowCode, isRead⟩ := Option.bind_eq_some_iff.mp isRead
          rw [parseHex4_eq_some_iff] at isLowCode
          split at isRead
          · rename_i isLow
            rw [isLowSurrogate_iff] at isLow
            have isQuad : IsUtf8 ([e, f, g, h] ++ tail) :=
              isUtf8_of_cons (isUtf8_of_cons isInput (by decide)) (by decide)
            rw [← Nat.add_assoc, encodeUtf8_of_scalar (by omega) (by omega), Option.bind_some]
              at isRead
            generalize isCoded : Char.ofNat (65536 + (code - 55296) * 1024 + (low - 56320)) = char
              at isRead
            obtain ⟨⟨out, left⟩, isInner, same⟩ := Option.map_eq_some_iff.mp isRead
            cases same
            obtain ⟨text, rfl, chars, isLeft⟩ :=
              ihPair [] alone (isLowCode.isUtf8 isQuad) isInner
            refine ⟨char :: text, (Cache.encode_cons _ _).symm, ?_, isLeft⟩
            rw [← isCoded]
            exact .pair isCode isHigh isLowCode isLow chars
          · cases isRead
        · cases isRead
      · rename_i notHigh
        split at isRead
        · cases isRead
        · rename_i notLow
          rw [isHighSurrogate_iff] at notHigh
          rw [isLowSurrogate_iff] at notLow
          have scalar : code < 0xD800 ∨ 0xDFFF < code := by omega
          have small := isCode.lt
          rw [encodeUtf8_of_scalar scalar (by omega), Option.bind_some] at isRead
          obtain ⟨⟨out, left⟩, isInner, same⟩ := Option.map_eq_some_iff.mp isRead
          cases same
          obtain ⟨text, rfl, chars, isLeft⟩ := ih [] alone isInput isInner
          exact ⟨_, (Cache.encode_cons _ _).symm, .unicode isCode scalar chars, isLeft⟩
  | case4 letter input _ ih =>
      intro start out rest high isText isRead
      refine .prepend high isText (by decide) ?_
      obtain ⟨byte, isEscape, isRead⟩ := Option.bind_eq_some_iff.mp isRead
      obtain ⟨⟨out, left⟩, isInner, same⟩ := Option.map_eq_some_iff.mp isRead
      cases same
      have isRest : IsUtf8 (letter :: input) := (isText.split (by decide)).2
      exact (ih [] alone (isUtf8_of_cons isRest (letter_ascii isEscape)) isInner).escape isEscape
  | case5 =>
      intro start out rest _ _ isRead
      cases isRead
  | case6 byte input notQuote _ _ plain ih =>
      intro start out rest high isText isRead
      obtain ⟨⟨out, left⟩, isInner, same⟩ := Option.map_eq_some_iff.mp isRead
      cases same
      rw [not_or, UInt8.lt_iff_toNat_lt] at plain
      have large : 32 ≤ byte.toNat := Nat.le_of_not_lt plain.1
      by_cases ascii : byte.toNat < 128
      · refine .prepend high isText ascii ?_
        obtain ⟨text, rfl, chars, isRest⟩ := ih [] alone (isText.split ascii).2 isInner
        obtain ⟨taken, isByte⟩ := chars.ascii ascii large notQuote plain.2
        refine ⟨_, ?_, taken, isRest⟩
        rw [Cache.encode_cons, isByte]
        rfl
      · have gathered := ih (start ++ [byte]) (fun other isOther => by
          rcases List.mem_append.mp isOther with isStart | isByte
          · exact high other isStart
          · rw [List.mem_singleton.mp isByte]
            exact Nat.le_of_not_lt ascii) (by rw [List.append_assoc]; exact isText) isInner
        rw [List.append_assoc, List.append_assoc] at gathered
        exact gathered

/-! ## Numbers that are read -/

theorem takeDigits_append {digits rest : Bytes} (notEmpty : digits ≠ [])
    (areDigits : digits.all isAsciiDigit = true)
    (notDigit : ∀ byte, rest.head? = some byte → isAsciiDigit byte = false) :
    takeDigits (digits ++ rest) = some (digits, rest) := by
  rw [takeDigits, span_digits (List.all_eq_true.mp areDigits) notDigit]
  cases digits with
  | nil => exact absurd rfl notEmpty
  | cons digit digits => rfl

theorem takeDigits_sound {input digits rest : Bytes}
    (isTaken : takeDigits input = some (digits, rest)) :
    input = digits ++ rest ∧ digits ≠ [] ∧ digits.all isAsciiDigit = true := by
  rw [takeDigits, List.span_eq_takeWhile_dropWhile] at isTaken
  split at isTaken
  · cases isTaken
  · rename_i notEmpty isPair
    cases isTaken
    obtain ⟨rfl, rfl⟩ := Prod.mk.inj isPair
    exact ⟨List.takeWhile_append_dropWhile.symm, notEmpty, List.all_takeWhile⟩

theorem takeInteger_append {whole rest : Bytes} (isInteger : IsInteger whole)
    (notDigit : ∀ byte, rest.head? = some byte → isAsciiDigit byte = false) :
    takeInteger (whole ++ rest) = some (whole, rest) := by
  rcases isInteger with rfl | ⟨notEmpty, notZero, areDigits⟩
  · rfl
  · rw [takeInteger]
    · exact takeDigits_append notEmpty areDigits notDigit
    · intro others same
      cases whole with
      | nil => exact notEmpty rfl
      | cons digit digits =>
          rw [(List.cons.inj same).1] at notZero
          exact notZero rfl

theorem takeInteger_sound {input whole rest : Bytes}
    (isTaken : takeInteger input = some (whole, rest)) :
    input = whole ++ rest ∧ IsInteger whole := by
  unfold takeInteger at isTaken
  split at isTaken
  · cases isTaken
    exact ⟨rfl, .inl rfl⟩
  · rename_i notZero
    obtain ⟨rfl, notEmpty, areDigits⟩ := takeDigits_sound isTaken
    refine ⟨rfl, .inr ⟨notEmpty, fun isHead => ?_, areDigits⟩⟩
    obtain ⟨digits, rfl⟩ := List.head?_eq_some_iff.mp isHead
    exact notZero (digits ++ rest) rfl

theorem IsInteger.all_digits {whole : Bytes} (isInteger : IsInteger whole) :
    whole ≠ [] ∧ whole.all isAsciiDigit = true := by
  rcases isInteger with rfl | ⟨notEmpty, -, areDigits⟩
  · exact ⟨List.cons_ne_nil _ _, by decide⟩
  · exact ⟨notEmpty, areDigits⟩

/-- The fraction as it is written. -/
def fractionText (fraction : Option Bytes) : Bytes := fraction.elim [] fun digits => 46 :: digits

/-- Digits behind a point, if there is one. -/
def IsFraction (fraction : Option Bytes) : Prop :=
  ∀ digits, fraction = some digits → digits ≠ [] ∧ digits.all isAsciiDigit = true

theorem takeFraction_append {fraction : Option Bytes} (isFraction : IsFraction fraction)
    {rest : Bytes}
    (notPart : ∀ byte, rest.head? = some byte → isAsciiDigit byte = false ∧ byte ≠ 46) :
    takeFraction (fractionText fraction ++ rest) = some (fractionText fraction, rest) := by
  cases fraction with
  | none =>
      change takeFraction rest = some ([], rest)
      rw [takeFraction]
      intro others same
      rw [same] at notPart
      exact (notPart 46 rfl).2 rfl
  | some digits =>
      obtain ⟨notEmpty, areDigits⟩ := isFraction digits rfl
      change (takeDigits (digits ++ rest)).map _ = _
      rw [takeDigits_append notEmpty areDigits fun byte isHead => (notPart byte isHead).1]
      rfl

theorem takeFraction_sound {input text rest : Bytes}
    (isTaken : takeFraction input = some (text, rest)) :
    ∃ fraction, IsFraction fraction ∧ text = fractionText fraction ∧ input = text ++ rest := by
  unfold takeFraction at isTaken
  split at isTaken
  · obtain ⟨⟨digits, left⟩, isDigits, same⟩ := Option.map_eq_some_iff.mp isTaken
    cases same
    obtain ⟨rfl, notEmpty, areDigits⟩ := takeDigits_sound isDigits
    refine ⟨some digits, fun other same => ?_, rfl, rfl⟩
    cases same
    exact ⟨notEmpty, areDigits⟩
  · cases isTaken
    refine ⟨none, fun digits same => ?_, rfl, rfl⟩
    cases same

/-- The exponent as it is written. -/
def exponentText (written : Option (Bytes × Bytes)) : Bytes :=
  written.elim [] fun (mark, digits) => mark ++ digits

theorem takeExponent_signed {mark sign : UInt8} (isMark : mark = 101 ∨ mark = 69)
    (isSign : sign = 43 ∨ sign = 45) (rest : Bytes) :
    takeExponent (mark :: sign :: rest) =
      (takeDigits rest).map fun (digits, rest) => (mark :: sign :: digits, rest) := by
  rcases isSign with rfl | rfl
  · exact if_pos isMark
  · exact if_pos isMark

theorem takeExponent_unsigned {mark : UInt8} (isMark : mark = 101 ∨ mark = 69) {rest : Bytes}
    (notSign : rest.head? ≠ some 43 ∧ rest.head? ≠ some 45) :
    takeExponent (mark :: rest) =
      (takeDigits rest).map fun (digits, rest) => (mark :: digits, rest) := by
  rw [takeExponent, if_pos isMark]
  · rintro others rfl
    exact notSign.1 rfl
  · rintro others rfl
    exact notSign.2 rfl

theorem takeExponent_append {written : Option (Bytes × Bytes)} (isExponent : IsExponent written)
    {rest : Bytes}
    (notPart : ∀ byte, rest.head? = some byte →
      isAsciiDigit byte = false ∧ byte ≠ 101 ∧ byte ≠ 69) :
    takeExponent (exponentText written ++ rest) = some (exponentText written, rest) := by
  cases written with
  | none =>
      change takeExponent rest = some ([], rest)
      cases rest with
      | nil => rfl
      | cons byte rest =>
          obtain ⟨-, notSmall, notLarge⟩ := notPart byte rfl
          exact if_neg (not_or.mpr ⟨notSmall, notLarge⟩)
  | some pair =>
      obtain ⟨mark, digits⟩ := pair
      obtain ⟨isMark, notEmpty, areDigits⟩ := isExponent mark digits rfl
      have taken := takeDigits_append notEmpty areDigits fun byte isHead => (notPart byte isHead).1
      have notSign (sign : UInt8) (notDigit : isAsciiDigit sign = false) :
          (digits ++ rest).head? ≠ some sign := by
        cases digits with
        | nil => exact absurd rfl notEmpty
        | cons digit digits =>
            intro same
            obtain rfl : digit = sign := Option.some.inj same
            rw [List.all_cons, notDigit] at areDigits
            cases areDigits
      change takeExponent (mark ++ digits ++ rest) = some (mark ++ digits, rest)
      simp only [exponentMarks, List.mem_cons, List.not_mem_nil, or_false] at isMark
      rcases isMark with rfl | rfl | rfl | rfl | rfl | rfl
      · refine (takeExponent_unsigned (.inl rfl) ⟨notSign 43 rfl, notSign 45 rfl⟩).trans ?_
        rw [taken]
        rfl
      · refine (takeExponent_unsigned (.inr rfl) ⟨notSign 43 rfl, notSign 45 rfl⟩).trans ?_
        rw [taken]
        rfl
      · refine (takeExponent_signed (.inl rfl) (.inl rfl) (digits ++ rest)).trans ?_
        rw [taken]
        rfl
      · refine (takeExponent_signed (.inl rfl) (.inr rfl) (digits ++ rest)).trans ?_
        rw [taken]
        rfl
      · refine (takeExponent_signed (.inr rfl) (.inl rfl) (digits ++ rest)).trans ?_
        rw [taken]
        rfl
      · refine (takeExponent_signed (.inr rfl) (.inr rfl) (digits ++ rest)).trans ?_
        rw [taken]
        rfl

theorem takeExponent_sound {input text rest : Bytes}
    (isTaken : takeExponent input = some (text, rest)) :
    ∃ written, IsExponent written ∧ text = exponentText written ∧ input = text ++ rest := by
  cases input with
  | nil =>
      cases isTaken
      refine ⟨none, fun mark digits same => ?_, rfl, rfl⟩
      cases same
  | cons mark input =>
      by_cases isMark : mark = 101 ∨ mark = 69
      · have marked (sign : Bytes) (isSign : mark :: sign ∈ exponentMarks) {input : Bytes}
            (isDigits : (takeDigits input).map (fun (digits, rest) =>
              (mark :: (sign ++ digits), rest)) = some (text, rest)) :
            ∃ written, IsExponent written ∧ text = exponentText written ∧
              mark :: (sign ++ input) = text ++ rest := by
          obtain ⟨⟨digits, left⟩, isDigits, same⟩ := Option.map_eq_some_iff.mp isDigits
          cases same
          obtain ⟨rfl, notEmpty, areDigits⟩ := takeDigits_sound isDigits
          refine ⟨some (mark :: sign, digits), fun other others same => ?_, rfl, ?_⟩
          · cases same
            exact ⟨isSign, notEmpty, areDigits⟩
          · rw [List.cons_append, List.append_assoc]
        have isMarkOf (sign : Bytes) (isSign : sign = [] ∨ sign = [43] ∨ sign = [45]) :
            mark :: sign ∈ exponentMarks := by
          rcases isMark with rfl | rfl <;> rcases isSign with rfl | rfl | rfl <;> decide
        by_cases isPlus : input.head? = some 43
        · obtain ⟨others, rfl⟩ := List.head?_eq_some_iff.mp isPlus
          rw [takeExponent_signed isMark (.inl rfl)] at isTaken
          exact marked [43] (isMarkOf _ (.inr (.inl rfl))) isTaken
        · by_cases isMinus : input.head? = some 45
          · obtain ⟨others, rfl⟩ := List.head?_eq_some_iff.mp isMinus
            rw [takeExponent_signed isMark (.inr rfl)] at isTaken
            exact marked [45] (isMarkOf _ (.inr (.inr rfl))) isTaken
          · rw [takeExponent_unsigned isMark ⟨isPlus, isMinus⟩] at isTaken
            exact marked [] (isMarkOf _ (.inl rfl)) isTaken
      · have absent : takeExponent (mark :: input) = some ([], mark :: input) := if_neg isMark
        rw [absent] at isTaken
        cases isTaken
        refine ⟨none, fun mark digits same => ?_, rfl, rfl⟩
        cases same

/-- What may follow a number: nothing, or a byte that does not go on with it. -/
def EndsNumber (rest : Bytes) : Prop :=
  ∀ byte, rest.head? = some byte →
    isAsciiDigit byte = false ∧ byte ≠ 46 ∧ byte ≠ 101 ∧ byte ≠ 69

/-- A text of two parts starts as the first of them or as the second. -/
theorem head_append {first second : Bytes} {property : UInt8 → Prop}
    (ofFirst : ∀ byte, first.head? = some byte → property byte)
    (ofSecond : ∀ byte, second.head? = some byte → property byte) :
    ∀ byte, (first ++ second).head? = some byte → property byte := by
  cases first with
  | nil => exact ofSecond
  | cons byte first => exact ofFirst

theorem head_fractionText (fraction : Option Bytes) :
    ∀ byte, (fractionText fraction).head? = some byte → isAsciiDigit byte = false := by
  intro byte isHead
  cases fraction with
  | none => cases isHead
  | some digits =>
      cases isHead
      rfl

/-- The parts of a number behind its sign. -/
def takeUnsigned (sign input : Bytes) : Option (Bytes × Bytes) :=
  (takeInteger input).bind fun (whole, input) =>
    (takeFraction input).bind fun (fraction, input) =>
      (takeExponent input).map fun (exponent, input) =>
        (sign ++ whole ++ fraction ++ exponent, input)

theorem takeNumber_minus (input : Bytes) : takeNumber (45 :: input) = takeUnsigned [45] input := rfl

theorem takeNumber_unsigned {input : Bytes} (notMinus : input.head? ≠ some 45) :
    takeNumber input = takeUnsigned [] input := by
  rw [takeNumber]
  · rfl
  · rintro others rfl
    exact notMinus rfl

/-- What stands behind the fraction of a literal does not go on with it. -/
theorem head_behindFraction (literal : Decimal) {rest : Bytes} (ends : EndsNumber rest) :
    ∀ byte, (exponentText literal.exponent ++ rest).head? = some byte →
      isAsciiDigit byte = false ∧ byte ≠ 46 :=
  head_append (fun _ isHead => literal.head_exponentBytes isHead)
    fun byte isHead => ⟨(ends byte isHead).1, (ends byte isHead).2.1⟩

/-- What stands behind the integer part of a literal does not go on with it. -/
theorem head_behindWhole (literal : Decimal) {rest : Bytes} (ends : EndsNumber rest) :
    ∀ byte, (fractionText literal.fraction ++ (exponentText literal.exponent ++ rest)).head? =
      some byte → isAsciiDigit byte = false :=
  head_append (head_fractionText literal.fraction)
    fun byte isHead => (head_behindFraction literal ends byte isHead).1

theorem isFraction_of_ne {literal : Decimal} (notEmpty : literal.fraction ≠ some []) :
    IsFraction literal.fraction := by
  intro digits isDigits
  refine ⟨?_, literal.fractionDigits digits isDigits⟩
  rintro rfl
  exact notEmpty isDigits

theorem Decimal.bytes_eq_texts (literal : Decimal) : literal.bytes =
    literal.whole ++ (fractionText literal.fraction ++ exponentText literal.exponent) :=
  List.append_assoc _ _ _

theorem takeUnsigned_append (sign : Bytes) {literal : Decimal} (isInteger : IsInteger literal.whole)
    (isFraction : literal.fraction ≠ some []) {rest : Bytes} (ends : EndsNumber rest) :
    takeUnsigned sign (literal.bytes ++ rest) = some (sign ++ literal.bytes, rest) := by
  rw [takeUnsigned, Decimal.bytes_eq_texts, List.append_assoc, List.append_assoc,
    takeInteger_append isInteger (head_behindWhole literal ends), Option.bind_some]
  dsimp only
  rw [takeFraction_append (isFraction_of_ne isFraction) (head_behindFraction literal ends),
    Option.bind_some]
  dsimp only
  rw [takeExponent_append literal.exponentDigits fun byte isHead =>
    ⟨(ends byte isHead).1, (ends byte isHead).2.2⟩, Option.map_some]
  simp only [List.append_assoc]

/-- The text of a number is taken. -/
theorem IsNumber.take {text : Bytes} {negative : Bool} {magnitude : ℚ}
    (isNumber : IsNumber text negative magnitude) {rest : Bytes} (ends : EndsNumber rest) :
    takeNumber (text ++ rest) = some (text, rest) := by
  obtain ⟨literal, rfl, isInteger, isFraction, -⟩ := isNumber
  cases negative with
  | true => exact takeUnsigned_append [45] isInteger isFraction ends
  | false =>
      obtain ⟨notEmpty, areDigits⟩ := isInteger.all_digits
      obtain ⟨digit, digits, isWhole⟩ := List.exists_cons_of_ne_nil notEmpty
      have notMinus : (literal.bytes ++ rest).head? ≠ some 45 := by
        rw [Decimal.bytes, isWhole]
        intro same
        obtain rfl : digit = 45 := Option.some.inj same
        rw [isWhole] at areDigits
        cases areDigits
      change takeNumber (literal.bytes ++ rest) = some (literal.bytes, rest)
      rw [takeNumber_unsigned notMinus]
      exact takeUnsigned_append [] isInteger isFraction ends

theorem takeUnsigned_sound {sign input text rest : Bytes}
    (isTaken : takeUnsigned sign input = some (text, rest)) :
    ∃ literal : Decimal, text = sign ++ literal.bytes ∧ input = literal.bytes ++ rest ∧
      IsInteger literal.whole ∧ literal.fraction ≠ some [] := by
  obtain ⟨⟨whole, behindWhole⟩, isWhole, isTaken⟩ := Option.bind_eq_some_iff.mp isTaken
  obtain ⟨⟨fraction, behindFraction⟩, isFraction, isTaken⟩ := Option.bind_eq_some_iff.mp isTaken
  obtain ⟨⟨exponent, left⟩, isExponent, same⟩ := Option.map_eq_some_iff.mp isTaken
  cases same
  obtain ⟨rfl, isInteger⟩ := takeInteger_sound isWhole
  obtain ⟨fraction, hasFraction, rfl, rfl⟩ := takeFraction_sound isFraction
  obtain ⟨written, hasExponent, rfl, rfl⟩ := takeExponent_sound isExponent
  refine ⟨⟨whole, fraction, written, isInteger.all_digits.2,
    fun digits isDigits => (hasFraction digits isDigits).2, hasExponent,
    .inl isInteger.all_digits.1⟩, ?_, ?_, isInteger, fun isEmpty => ?_⟩
  · simp only [Decimal.bytes, fractionText, exponentText, List.append_assoc]
  · simp only [Decimal.bytes, fractionText, exponentText, List.append_assoc]
  · exact (hasFraction [] isEmpty).1 rfl

/-- What is taken is the text of a number. -/
theorem takeNumber_sound {input text rest : Bytes}
    (isTaken : takeNumber input = some (text, rest)) :
    input = text ++ rest ∧ ∃ negative magnitude, IsNumber text negative magnitude := by
  by_cases isMinus : input.head? = some 45
  · obtain ⟨others, rfl⟩ := List.head?_eq_some_iff.mp isMinus
    rw [takeNumber_minus] at isTaken
    obtain ⟨literal, rfl, rfl, isInteger, isFraction⟩ := takeUnsigned_sound isTaken
    exact ⟨rfl, true, _, literal, rfl, isInteger, isFraction, rfl⟩
  · rw [takeNumber_unsigned isMinus] at isTaken
    obtain ⟨literal, rfl, rfl, isInteger, isFraction⟩ := takeUnsigned_sound isTaken
    exact ⟨rfl, false, _, literal, rfl, isInteger, isFraction, rfl⟩

/-- What is left behind visible characters is text. -/
theorem isUtf8_of_isVisible {text rest : Bytes} (visible : IsVisible text)
    (isText : IsUtf8 (text ++ rest)) : IsUtf8 rest := by
  induction text with
  | nil => exact isText
  | cons byte text ih =>
      obtain ⟨isByte, others⟩ := List.forall_mem_cons.mp visible
      rw [isGraphic, Bool.and_eq_true, decide_eq_true_eq, decide_eq_true_eq,
        UInt8.le_iff_toNat_le, UInt8.le_iff_toNat_le] at isByte
      exact ih others (isUtf8_of_cons isText (isByte.2.trans_lt (by decide)))

/-- A number has visible characters, at least one. -/
theorem IsNumber.isVisible {text : Bytes} {negative : Bool} {magnitude : ℚ}
    (isNumber : IsNumber text negative magnitude) : IsVisible text ∧ text ≠ [] := by
  obtain ⟨literal, rfl, isInteger, -, -⟩ := isNumber
  have notEmpty : literal.bytes ≠ [] := by
    rw [Decimal.bytes, List.append_assoc]
    exact List.append_ne_nil_of_left_ne_nil isInteger.all_digits.1 _
  refine ⟨IsVisible.append ?_ literal.isVisible_bytes,
    List.append_ne_nil_of_right_ne_nil _ notEmpty⟩
  cases negative with
  | true => exact isVisible_of_graphic rfl
  | false => exact isVisible_of_graphic rfl

/-- A number is read as the double next to it. -/
theorem IsNumber.parseF64_eq {text : Bytes} {negative : Bool} {magnitude : ℚ}
    (isNumber : IsNumber text negative magnitude) :
    parseF64 text =
      some (F64.round negative (if negative then -magnitude else magnitude)) := by
  obtain ⟨literal, rfl, -, -, rfl⟩ := isNumber
  cases negative with
  | true => exact parseF64_decimal (some true) literal
  | false => exact parseF64_decimal none literal

end Json
end Script
end MuonJs
