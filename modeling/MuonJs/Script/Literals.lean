import MuonJs.Lib.CodeUnits
import MuonJs.Script.Compiler
import MuonJs.Script.Splitting
import MuonJs.Script.UnitView

/-!
# String literals

A string literal is read in three ways: the compiler of expressions reads it byte by byte,
`unescape_string_literal` reads it as characters and writes units, and a whole program
that is one literal is taken without reading it.  This module says which literals each
way gives the bytes of the value that the language defines.
-/

namespace MuonJs
namespace Script
namespace Literals

open Cache (Bytes asBytes encode fromUtf8)

/-! ## Characters and units -/

/-- What an escape of one character stands for. -/
def simpleEscape (code : ℕ) : Option ℕ :=
  if code = 110 then some 10
  else if code = 114 then some 13
  else if code = 116 then some 9
  else if code = 98 then some 8
  else if code = 102 then some 12
  else if code = 118 then some 11
  else if code = 92 ∨ code = 34 ∨ code = 39 then some code
  else none

/-- The unit of hexadecimal digits, if they are digits of one. -/
def hexUnits (hex : List Char) : List UInt16 :=
  ((parseHex 0x10000 (encode hex)).map fun value => UInt16.ofNat value).toList

/-- The loop of `unescape_string_literal`; fuel counts its turns. -/
def unescapeUnits : ℕ → List Char → List UInt16
  | 0, _ => []
  | _ + 1, [] => []
  | fuel + 1, ch :: rest =>
      if ch.toNat ≠ 92 then encodeUtf16 ch.toNat ++ unescapeUnits fuel rest
      else match rest with
        | [] => []
        | escaped :: rest =>
            match simpleEscape escaped.toNat with
            | some unit => UInt16.ofNat unit :: unescapeUnits fuel rest
            | none =>
                if escaped.toNat = 120 then
                  hexUnits (rest.take 2) ++ unescapeUnits fuel (rest.drop 2)
                else if escaped.toNat = 117 then
                  if rest.head?.map Char.toNat = some 123 then
                    let hex := (rest.drop 1).takeWhile fun h => h.toNat ≠ 125
                    ((parseHex (2 ^ 32) (encode hex)).map encodeUtf16).getD [] ++
                      unescapeUnits fuel
                        (((rest.drop 1).dropWhile fun h => h.toNat ≠ 125).drop 1)
                  else hexUnits (rest.take 4) ++ unescapeUnits fuel (rest.drop 4)
                else UInt16.ofNat escaped.toNat :: unescapeUnits fuel rest

/-- `unescape_string_literal`, of the characters of the text. -/
def unescapeStringLiteral (src : List Char) : String :=
  utf16UnitsToString (unescapeUnits (src.length + 1) src)

/-- The loop of `ArithParser::parse_string`: the text up to the closing quote. -/
def rawStringFrom (quote : UInt8) (escaped : Bool) (out : Bytes) : Bytes → Option (Bytes × Bytes)
  | [] => none
  | byte :: rest =>
      if escaped then rawStringFrom quote false (out ++ [byte]) rest
      else if byte = quote then some (out, rest)
      else rawStringFrom quote (byte = 92) (out ++ [byte]) rest

/-- The bytes of a text without its escapes, of the bytes between the quotes. -/
def unescapeBytes (raw : Bytes) : Option Bytes :=
  (fromUtf8 raw).map fun text => asBytes (unescapeStringLiteral text.toList)

/-- `ArithParser::parse_string`, on an input that starts with a quote. -/
def parseString : Bytes → Option (Bytes × Bytes)
  | [] => none
  | quote :: rest =>
      (rawStringFrom quote false [] rest).bind fun raw =>
        (unescapeBytes raw.1).map fun text => (text, raw.2)

/-- The literal of `eval_value`. -/
def evalLiteral (text : Bytes) : Option Bytes :=
  if isSimpleStringLiteral text then unescapeBytes ((text.take (text.length - 1)).drop 1) else none

/-! ## Literals -/

/-- A hexadecimal digit. -/
def IsHex (digit : Char) : Prop :=
  digit.toNat < 128 ∧ (hexDigit (UInt8.ofNat digit.toNat)).isSome = true

/-- The number that hexadecimal digits denote. -/
def hexValue (digits : List Char) : ℕ :=
  digits.foldl (fun value digit => value * 16 + (hexDigit (UInt8.ofNat digit.toNat)).getD 0) 0

/-- A line terminator of the language. -/
def IsLineTerminator (char : Char) : Prop :=
  char.toNat = 10 ∨ char.toNat = 13 ∨ char.toNat = 0x2028 ∨ char.toNat = 0x2029

/-- What may follow the backslash of a line continuation. -/
def lineTerminators : List (List Char) :=
  [[Char.ofNat 10], [Char.ofNat 13], [Char.ofNat 13, Char.ofNat 10], [Char.ofNat 0x2028],
    [Char.ofNat 0x2029]]

/-- A part of a literal. -/
inductive Item
  | char (ch : Char)
  | simple (letter : Char)
  | zero
  | hex (digits : List Char)
  | unicode (digits : List Char)
  | braces (digits : List Char)
  | other (ch : Char)
  | continuation (terminator : List Char)

namespace Item

/-- The text after the backslash of an escape. -/
def escaped : Item → List Char
  | .char _ => []
  | .simple letter => [letter]
  | .zero => [Char.ofNat 48]
  | .hex digits => Char.ofNat 120 :: digits
  | .unicode digits => Char.ofNat 117 :: digits
  | .braces digits => Char.ofNat 117 :: Char.ofNat 123 :: digits ++ [Char.ofNat 125]
  | .other ch => [ch]
  | .continuation terminator => terminator

/-- The text of a part. -/
def text : Item → List Char
  | .char ch => [ch]
  | item => Char.ofNat 92 :: item.escaped

/-- A part that the language allows between the quotes. -/
def Valid (quote : Char) : Item → Prop
  | .char ch => ch ≠ quote ∧ ch.toNat ≠ 92 ∧ ¬IsLineTerminator ch
  | .simple letter => (simpleEscape letter.toNat).isSome = true
  | .zero => True
  | .hex digits => digits.length = 2 ∧ ∀ digit ∈ digits, IsHex digit
  | .unicode digits => digits.length = 4 ∧ ∀ digit ∈ digits, IsHex digit
  | .braces digits => digits ≠ [] ∧ (∀ digit ∈ digits, IsHex digit) ∧ hexValue digits < 0x110000
  | .other ch => simpleEscape ch.toNat = none ∧ ch.toNat ≠ 120 ∧ ch.toNat ≠ 117 ∧
      ¬(48 ≤ ch.toNat ∧ ch.toNat ≤ 57) ∧ ¬IsLineTerminator ch
  | .continuation terminator => terminator ∈ lineTerminators

/-- The units that a part stands for. -/
def units : Item → List UInt16
  | .char ch => encodeUtf16 ch.toNat
  | .simple letter => [UInt16.ofNat ((simpleEscape letter.toNat).getD 0)]
  | .zero => [0]
  | .hex digits => [UInt16.ofNat (hexValue digits)]
  | .unicode digits => [UInt16.ofNat (hexValue digits)]
  | .braces digits => encodeUtf16 (hexValue digits)
  | .other ch => encodeUtf16 ch.toNat
  | .continuation _ => []

/-- A digit does not begin the part. -/
def NoDigit : Item → Prop
  | .char ch => ¬(48 ≤ ch.toNat ∧ ch.toNat ≤ 57)
  | _ => True

end Item

/-- A string literal. -/
structure Literal where
  /-- The quote around it. -/
  quote : Char
  /-- The parts between the quotes. -/
  items : List Item
  /-- There are two kinds of quotes. -/
  isQuote : quote.toNat = 34 ∨ quote.toNat = 39
  /-- The parts are allowed. -/
  valid : ∀ item ∈ items, item.Valid quote
  /-- No digit follows an escaped zero. -/
  noOctal : items.IsChain fun item next => item = .zero → next.NoDigit

/-- The code that is written for a unit outside of pairs: surrogates become private. -/
def privateCode (unit : ℕ) : ℕ := if IsSurrogate unit then unit + 0x800 else unit

/-- The codes of a text of units, pairs as characters. -/
def valueCodes (units : List UInt16) : List ℕ :=
  CodeUnits.decode privateCode (units.map UInt16.toNat)

/-- The bytes of codes. -/
def codesBytes (codes : List ℕ) : Bytes := codes.flatMap codePointBytes

namespace Literal

variable (literal : Literal)

/-- The text between the quotes. -/
def body : List Char := literal.items.flatMap Item.text

/-- The literal as bytes. -/
def bytes : Bytes := encode (literal.quote :: (literal.body ++ [literal.quote]))

/-- The units of the value that the language defines. -/
def units : List UInt16 := literal.items.flatMap Item.units

/-- The bytes of the value, as the same text has them when it arrives as data. -/
def value : Bytes := codesBytes (valueCodes literal.units)

end Literal

/-! ## Deviations -/

/-- A part that `parse_string_literal` reads as the language does. -/
def Item.ReadAsBytes : Item → Prop
  | .char ch => ch.toNat < 128
  | .simple _ | .zero | .hex _ => True
  | .unicode digits | .braces digits => ¬IsSurrogate (hexValue digits)
  | .other _ | .continuation _ => False

/-- A part that `unescape_string_literal` reads as the language does. -/
def Item.ReadAsUnits : Item → Prop
  | .zero | .continuation _ => False
  | _ => True

/-- A part that is not an escape. -/
def Item.IsPlain : Item → Prop
  | .char _ => True
  | _ => False

/-! ## Codes as bytes -/

theorem codePointBytes_eq {code : ℕ} (valid : code.isValidChar) :
    codePointBytes code = encode [Char.ofNat code] := by
  rw [codePointBytes, if_pos valid]
  exact Cache.asBytes_ofList [Char.ofNat code]

theorem codesBytes_eq {codes : List ℕ} (valid : ∀ code ∈ codes, code.isValidChar) :
    codesBytes codes = encode (codes.map Char.ofNat) := by
  induction codes with
  | nil => rfl
  | cons code rest ih =>
      rw [List.forall_mem_cons] at valid
      have isRest := ih valid.2
      rw [codesBytes] at isRest ⊢
      rw [List.flatMap_cons, isRest, codePointBytes_eq valid.1, ← Cache.encode_append, List.map_cons,
        List.singleton_append]

/-- Codes of characters have the same bytes only when they are the same. -/
theorem codesBytes_inj {left right : List ℕ} (isLeft : ∀ code ∈ left, code.isValidChar)
    (isRight : ∀ code ∈ right, code.isValidChar) :
    codesBytes left = codesBytes right ↔ left = right := by
  refine ⟨fun same => ?_, fun same => by rw [same]⟩
  have isCode {codes : List ℕ} (valid : ∀ code ∈ codes, code.isValidChar) :
      (codes.map Char.ofNat).map Char.toNat = codes := by
    rw [List.map_map]
    exact (List.map_congr_left fun code isMember => toNat_char (valid code isMember)).trans
      (List.map_id _)
  rw [codesBytes_eq isLeft, codesBytes_eq isRight] at same
  rw [← isCode isLeft, ← isCode isRight, Cache.encode_injective same]

theorem codesBytes_append (left right : List ℕ) :
    codesBytes (left ++ right) = codesBytes left ++ codesBytes right :=
  List.flatMap_append

theorem isValidChar_privateCode {unit : ℕ} (fits : unit < 0x10000) :
    (privateCode unit).isValidChar := by
  rw [privateCode, Nat.isValidChar]
  split
  case isTrue isSurrogate =>
    obtain ⟨low, high⟩ := isSurrogate
    exact .inr ⟨by omega, by omega⟩
  case isFalse notSurrogate =>
    rw [IsSurrogate] at notSurrogate
    omega

/-- The codes of units are characters. -/
theorem isValidChar_decode {units : List ℕ} (fits : ∀ unit ∈ units, unit < 0x10000) :
    ∀ code ∈ CodeUnits.decode privateCode units, code.isValidChar := by
  induction units using CodeUnits.decode.induct with
  | case1 => exact List.forall_mem_nil _
  | case2 unit =>
      rw [CodeUnits.decode, List.forall_mem_singleton]
      exact isValidChar_privateCode (fits unit List.mem_cons_self)
  | case3 unit next rest isPair ih =>
      rw [CodeUnits.decode_pair _ isPair.1 isPair.2, List.forall_mem_cons]
      refine ⟨?_, ih fun other isMember => fits other (by simp [isMember])⟩
      obtain ⟨⟨low, high⟩, least, most⟩ := isPair
      unfold Nat.isValidChar CodeUnits.combine
      omega
  | case4 unit next rest notPair ih =>
      rw [CodeUnits.decode, if_neg notPair, List.forall_mem_cons]
      exact ⟨isValidChar_privateCode (fits unit List.mem_cons_self),
        ih fun other isMember => fits other (List.mem_cons_of_mem _ isMember)⟩

theorem isValidChar_valueCodes (units : List UInt16) :
    ∀ code ∈ valueCodes units, code.isValidChar := by
  refine isValidChar_decode fun unit isMember => ?_
  obtain ⟨original, -, rfl⟩ := List.mem_map.mp isMember
  exact original.toNat_lt

/-! ## Hexadecimal digits -/

theorem encode_ascii {chars : List Char} (ascii : ∀ char ∈ chars, char.toNat < 128) :
    encode chars = chars.map fun char => UInt8.ofNat char.toNat := by
  induction chars with
  | nil => rfl
  | cons char rest ih =>
      rw [List.forall_mem_cons] at ascii
      rw [Cache.encode_cons, Cache.utf8EncodeChar_of_lt ascii.1, ih ascii.2, List.map_cons,
        List.singleton_append]

theorem le_foldl_hex (digits : List Char) (start : ℕ) :
    start ≤ digits.foldl
      (fun value digit => value * 16 + (hexDigit (UInt8.ofNat digit.toNat)).getD 0) start := by
  induction digits generalizing start with
  | nil => exact le_refl _
  | cons digit rest ih =>
      refine le_trans ?_ (ih _)
      dsimp only
      omega

theorem foldlM_hex {bound : ℕ} {digits : List Char} (areHex : ∀ digit ∈ digits, IsHex digit)
    (start : ℕ) (small : digits.foldl
      (fun value digit => value * 16 + (hexDigit (UInt8.ofNat digit.toNat)).getD 0) start < bound) :
    (digits.map fun digit => UInt8.ofNat digit.toNat).foldlM (fun value byte =>
        (hexDigit byte).bind fun digit =>
          if value * 16 + digit < bound then some (value * 16 + digit) else none) start =
      some (digits.foldl
        (fun value digit => value * 16 + (hexDigit (UInt8.ofNat digit.toNat)).getD 0) start) := by
  induction digits generalizing start with
  | nil => rfl
  | cons digit rest ih =>
      rw [List.forall_mem_cons] at areHex
      obtain ⟨value, isValue⟩ := Option.isSome_iff_exists.mp areHex.1.2
      rw [List.foldl_cons, isValue, Option.getD_some] at small ⊢
      have isSmall := (le_foldl_hex rest (start * 16 + value)).trans_lt small
      rw [List.map_cons, List.foldlM_cons, isValue, Option.bind_some, if_pos isSmall]
      exact ih areHex.2 _ small

/-- Hexadecimal digits are read as the number they denote. -/
theorem parseHex_encode {bound : ℕ} {digits : List Char} (nonempty : digits ≠ [])
    (areHex : ∀ digit ∈ digits, IsHex digit) (small : hexValue digits < bound) :
    parseHex bound (encode digits) = some (hexValue digits) := by
  rw [encode_ascii fun digit isDigit => (areHex digit isDigit).1]
  have isFold := foldlM_hex areHex 0 small
  obtain ⟨digit, rest, rfl⟩ := List.exists_cons_of_ne_nil nonempty
  have notPlus : UInt8.ofNat digit.toNat ≠ 43 := by
    intro isPlus
    have isHex := (areHex digit List.mem_cons_self).2
    rw [isPlus] at isHex
    cases isHex
  rw [List.map_cons] at isFold ⊢
  unfold parseHex
  split
  · rename_i first others isText
    rw [List.cons.injEq] at isText
    exact absurd isText.1 notPlus
  · exact isFold

theorem hexDigit_lt (byte : UInt8) : (hexDigit byte).getD 0 < 16 := by
  simp only [hexDigit, UInt8.le_iff_toNat_le]
  split
  · rename_i isDigit
    have high : byte.toNat ≤ 57 := isDigit.2
    exact show byte.toNat - 48 < 16 by omega
  split
  · rename_i isDigit
    have high : byte.toNat ≤ 102 := isDigit.2
    exact show byte.toNat - 87 < 16 by omega
  split
  · rename_i isDigit
    have high : byte.toNat ≤ 70 := isDigit.2
    exact show byte.toNat - 55 < 16 by omega
  · exact show 0 < 16 by omega

theorem foldl_hex_lt {digits : List Char} (start : ℕ) :
    digits.foldl (fun value digit => value * 16 + (hexDigit (UInt8.ofNat digit.toNat)).getD 0) start <
      (start + 1) * 16 ^ digits.length := by
  induction digits generalizing start with
  | nil => simp
  | cons digit rest ih =>
      have isDigit := hexDigit_lt (UInt8.ofNat digit.toNat)
      rw [List.foldl_cons, List.length_cons, pow_succ']
      refine (ih _).trans_le ?_
      rw [← mul_assoc]
      exact Nat.mul_le_mul_right _ (by omega)

/-- The number of some digits. -/
theorem hexValue_lt (digits : List Char) : hexValue digits < 16 ^ digits.length := by
  have isLess := @foldl_hex_lt digits 0
  rwa [Nat.zero_add, one_mul] at isLess

/-! ## Bytes of parts -/

theorem length_encode_hex {digits : List Char} (areHex : ∀ digit ∈ digits, IsHex digit) :
    (encode digits).length = digits.length := by
  rw [encode_ascii fun digit isDigit => (areHex digit isDigit).1, List.length_map]

theorem isSome_hexDigit {digits : List Char} (areHex : ∀ digit ∈ digits, IsHex digit) :
    ∀ byte ∈ encode digits, (hexDigit byte).isSome = true := by
  rw [encode_ascii fun digit isDigit => (areHex digit isDigit).1]
  intro byte isByte
  obtain ⟨digit, isDigit, rfl⟩ := List.mem_map.mp isByte
  exact (areHex digit isDigit).2

/-- The codes of some bytes, each for itself. -/
def byteCodes (bytes : Bytes) : List ℕ := bytes.map UInt8.toNat

/-- The codes that `parse_string_literal` writes for a part. -/
def Item.writtenCodes : Item → List ℕ
  | .char ch => byteCodes (encode [ch])
  | .simple letter => [(simpleEscape letter.toNat).getD 0]
  | .zero => [0]
  | .hex digits => [hexValue digits]
  | .unicode digits | .braces digits =>
      if (hexValue digits).isValidChar then [hexValue digits] else []
  | .other ch => 92 :: byteCodes (encode [ch])
  | .continuation terminator => 92 :: byteCodes (encode terminator)

theorem codesBytes_byteCodes (bytes : Bytes) :
    codesBytes (byteCodes bytes) = bytes.flatMap fun byte => codePointBytes byte.toNat :=
  List.flatMap_map _ _ bytes

theorem codesBytes_cons (code : ℕ) (codes : List ℕ) :
    codesBytes (code :: codes) = codePointBytes code ++ codesBytes codes := rfl

/-- The bytes of a number that was read. -/
theorem getD_map_codePointBytes (code : ℕ) :
    ((some code).map codePointBytes).getD [] =
      codesBytes (if code.isValidChar then [code] else []) := by
  rw [Option.map_some, Option.getD_some]
  split
  case isTrue => exact (List.append_nil _).symm
  case isFalse invalid =>
    rw [codePointBytes, if_neg invalid]
    rfl

section Turns

variable {quote : UInt8} (fuel : ℕ) (text rest : Bytes)

theorem parseStringFrom_quote :
    parseStringFrom quote (fuel + 1) text (quote :: rest) = some (text, rest) := by
  unfold parseStringFrom
  rw [if_pos rfl]

theorem parseStringFrom_plain {byte : UInt8} (notQuote : byte ≠ quote) (notEscape : byte ≠ 92) :
    parseStringFrom quote (fuel + 1) text (byte :: rest) =
      parseStringFrom quote fuel (text ++ codesBytes [byte.toNat]) rest := by
  conv_lhs => unfold parseStringFrom
  dsimp only
  rw [if_neg notQuote, if_neg notEscape, codesBytes_cons]
  exact congrArg (parseStringFrom quote fuel · rest) (by rw [codesBytes]; simp)

/-- Bytes without a quote and without a backslash. -/
theorem parseStringFrom_bytes {bytes : Bytes}
    (plain : ∀ byte ∈ bytes, byte ≠ quote ∧ byte ≠ 92) :
    parseStringFrom quote (fuel + bytes.length) text (bytes ++ rest) =
      parseStringFrom quote fuel (text ++ codesBytes (byteCodes bytes)) rest := by
  induction bytes generalizing text with
  | nil => rw [byteCodes, List.map_nil, codesBytes, List.flatMap_nil, List.append_nil]; rfl
  | cons byte bytes ih =>
      rw [List.forall_mem_cons] at plain
      rw [List.length_cons, ← Nat.add_assoc, List.cons_append,
        parseStringFrom_plain _ _ _ plain.1.1 plain.1.2, ih _ plain.2, List.append_assoc,
        ← codesBytes_append]
      rfl

variable (notEscape : (92 : UInt8) ≠ quote)
include notEscape

theorem parseStringFrom_escaped {byte : UInt8} (notHex : byte ≠ 120) (notUnicode : byte ≠ 117) :
    parseStringFrom quote (fuel + 1) text (92 :: byte :: rest) =
      parseStringFrom quote fuel (text ++ escapedByte byte) rest := by
  rw [parseStringFrom, if_neg notEscape, if_pos rfl]
  · exact notHex
  · exact fun _ isUnicode _ => notUnicode isUnicode
  · exact notUnicode

theorem parseStringFrom_hex (high low : UInt8) :
    parseStringFrom quote (fuel + 1) text (92 :: 120 :: high :: low :: rest) =
      parseStringFrom quote fuel
        (text ++ ((parseHex 256 [high, low]).map codePointBytes).getD []) rest := by
  rw [parseStringFrom, if_neg notEscape, if_pos rfl]

theorem parseStringFrom_braces :
    parseStringFrom quote (fuel + 1) text (92 :: 117 :: 123 :: rest) =
      parseStringFrom quote fuel
        (text ++ ((parseHex (2 ^ 32) (rest.takeWhile fun byte => byte ≠ 125)).map
          codePointBytes).getD [])
        ((rest.dropWhile fun byte => byte ≠ 125).drop 1) := by
  rw [parseStringFrom, if_neg notEscape, if_pos rfl]

theorem parseStringFrom_unicode {first : UInt8} (notBrace : first ≠ 123)
    (isLong : 3 ≤ rest.length) :
    parseStringFrom quote (fuel + 1) text (92 :: 117 :: first :: rest) =
      parseStringFrom quote fuel
        (text ++ ((parseHex (2 ^ 32) ((first :: rest).take 4)).map codePointBytes).getD [])
        ((first :: rest).drop 4) := by
  have isEnough : 4 ≤ (first :: rest).length := Nat.succ_le_succ isLong
  rw [parseStringFrom, if_neg notEscape, if_pos rfl, if_pos isEnough]
  exact fun _ isRest => notBrace (List.cons.inj isRest).1

end Turns

/-! ## Parts read as bytes -/

theorem simpleEscape_cases {code : ℕ} (isSimple : (simpleEscape code).isSome = true) :
    code ∈ [110, 114, 116, 98, 102, 118, 92, 34, 39] := by
  unfold simpleEscape at isSimple
  split at isSimple
  · simp [*]
  split at isSimple
  · simp [*]
  split at isSimple
  · simp [*]
  split at isSimple
  · simp [*]
  split at isSimple
  · simp [*]
  split at isSimple
  · simp [*]
  split at isSimple
  · rename_i isMark
    obtain rfl | rfl | rfl := isMark
    · decide
    · decide
    · decide
  · cases isSimple

theorem escapedByte_simple {code : ℕ} (isSimple : (simpleEscape code).isSome = true) :
    escapedByte (UInt8.ofNat code) = codesBytes [(simpleEscape code).getD 0] := by
  have isCode := simpleEscape_cases isSimple
  simp only [List.mem_cons, List.not_mem_nil, or_false] at isCode
  obtain rfl | rfl | rfl | rfl | rfl | rfl | rfl | rfl | rfl := isCode <;> rfl

/-- A byte that is no escape is written behind the backslash. -/
theorem escapedByte_other {byte : UInt8} (notSimple : simpleEscape byte.toNat = none)
    (notZero : byte ≠ 48) : escapedByte byte = codesBytes (92 :: byteCodes [byte]) := by
  have isNot {code : UInt8} (isSimple : (simpleEscape code.toNat).isSome = true) :
      byte ≠ code := by
    rintro rfl
    rw [notSimple] at isSimple
    cases isSimple
  rw [escapedByte, if_neg (isNot rfl), if_neg (isNot rfl), if_neg (isNot rfl),
    if_neg (isNot rfl), if_neg (isNot rfl), if_neg (isNot rfl), if_neg, if_neg notZero]
  · rw [codesBytes_cons, codesBytes_byteCodes, List.flatMap_singleton]
    rfl
  · rintro (isByte | isByte | isByte)
    · exact isNot rfl isByte
    · exact isNot rfl isByte
    · exact isNot rfl isByte

theorem simpleEscape_of_le {code : ℕ} (isLarge : 128 ≤ code) : simpleEscape code = none := by
  by_contra isSome
  have isCode := simpleEscape_cases (Option.isSome_iff_ne_none.mpr isSome)
  simp only [List.mem_cons, List.not_mem_nil, or_false] at isCode
  omega

/-- The bytes of a character that is not the same as an ASCII one. -/
theorem ne_of_mem_encode {ch : Char} {byte mark : UInt8} (isMark : mark.toNat < 128)
    (differs : ch.toNat ≠ mark.toNat) (isByte : byte ∈ encode [ch]) : byte ≠ mark := by
  rintro rfl
  rw [Cache.encode_cons, Cache.encode_nil, List.append_nil] at isByte
  by_cases ascii : ch.toNat < 128
  · rw [Cache.utf8EncodeChar_of_lt ascii, List.mem_singleton] at isByte
    refine differs ?_
    rw [isByte, Cache.toNat_byte (by omega)]
  · have isHigh := Cache.le_of_mem_utf8EncodeChar (Nat.le_of_not_lt ascii) isByte
    omega

section Parts

variable {quote : Char} (isQuote : quote.toNat = 34 ∨ quote.toNat = 39) (fuel : ℕ)
  (text rest : Bytes)

/-- The quote as a byte. -/
abbrev quoteByte (quote : Char) : UInt8 := UInt8.ofNat quote.toNat

include isQuote

theorem toNat_quoteByte : (quoteByte quote).toNat = quote.toNat :=
  Cache.toNat_byte (by omega)

theorem backslash_ne_quote : (92 : UInt8) ≠ quoteByte quote := by
  intro same
  have isCode := congrArg UInt8.toNat same
  rw [toNat_quoteByte isQuote] at isCode
  have isBackslash : UInt8.toNat 92 = 92 := rfl
  omega

theorem plain_encode {ch : Char} (notQuote : ch ≠ quote) (notEscape : ch.toNat ≠ 92) :
    ∀ byte ∈ encode [ch], byte ≠ quoteByte quote ∧ byte ≠ 92 := by
  intro byte isByte
  have differs : ch.toNat ≠ quote.toNat := fun same => notQuote (Char.toNat_inj.mp same)
  refine ⟨ne_of_mem_encode ?_ ?_ isByte, ne_of_mem_encode (by decide) notEscape isByte⟩
  · rw [toNat_quoteByte isQuote]
    omega
  · rwa [toNat_quoteByte isQuote]

/-- An escape that the reader does not know. -/
theorem parseStringFrom_unknown {first : UInt8} {others : Bytes}
    (notSimple : simpleEscape first.toNat = none)
    (notKnown : first ≠ 48 ∧ first ≠ 120 ∧ first ≠ 117)
    (plain : ∀ byte ∈ others, byte ≠ quoteByte quote ∧ byte ≠ 92) :
    parseStringFrom (quoteByte quote) (fuel + others.length + 1) text
        (92 :: first :: others ++ rest) =
      parseStringFrom (quoteByte quote) fuel
        (text ++ codesBytes (92 :: byteCodes (first :: others))) rest := by
  rw [List.cons_append, List.cons_append,
    parseStringFrom_escaped _ _ _ (backslash_ne_quote isQuote) notKnown.2.1 notKnown.2.2,
    escapedByte_other notSimple notKnown.1, parseStringFrom_bytes _ _ _ plain, List.append_assoc,
    ← codesBytes_append]
  rfl

/-- Some turns of the reader take a part. -/
def Takes (quote : UInt8) (input : Bytes) (codes : List ℕ) : Prop :=
  ∃ turns ≤ input.length, ∀ fuel text rest,
    parseStringFrom quote (fuel + turns) text (input ++ rest) =
      parseStringFrom quote fuel (text ++ codesBytes codes) rest

theorem takes_unknown {first : UInt8} {others : Bytes}
    (notSimple : simpleEscape first.toNat = none)
    (notKnown : first ≠ 48 ∧ first ≠ 120 ∧ first ≠ 117)
    (plain : ∀ byte ∈ others, byte ≠ quoteByte quote ∧ byte ≠ 92) :
    Takes (quoteByte quote) (92 :: first :: others) (92 :: byteCodes (first :: others)) := by
  refine ⟨others.length + 1, Nat.le_succ _, fun fuel text rest => ?_⟩
  rw [← Nat.add_assoc]
  exact parseStringFrom_unknown isQuote fuel text rest notSimple notKnown plain

theorem takes_char {ch : Char} (valid : (Item.char ch).Valid quote) :
    Takes (quoteByte quote) (encode [ch]) (byteCodes (encode [ch])) :=
  ⟨_, le_refl _, fun fuel text rest =>
    parseStringFrom_bytes fuel text rest (plain_encode isQuote valid.1 valid.2.1)⟩

theorem takes_other {ch : Char} (valid : (Item.other ch).Valid quote) :
    Takes (quoteByte quote) (92 :: encode [ch]) (92 :: byteCodes (encode [ch])) := by
  obtain ⟨notSimple, notHex, notUnicode, notDigit, -⟩ := valid
  have isNot {mark : UInt8} (isMark : mark.toNat < 128) (differs : ch.toNat ≠ mark.toNat)
      {byte : UInt8} (isByte : byte ∈ encode [ch]) : byte ≠ mark :=
    ne_of_mem_encode isMark differs isByte
  have notQuote : ch ≠ quote := by
    rintro rfl
    obtain isCode | isCode := isQuote
    · rw [isCode] at notSimple
      cases notSimple
    · rw [isCode] at notSimple
      cases notSimple
  have notEscape : ch.toNat ≠ 92 := by
    intro isCode
    rw [isCode] at notSimple
    cases notSimple
  have plain := plain_encode isQuote notQuote notEscape
  cases isEncoded : encode [ch] with
  | nil =>
      rw [Cache.encode_cons, Cache.encode_nil, List.append_nil] at isEncoded
      exact absurd isEncoded String.utf8EncodeChar_ne_nil
  | cons first others =>
      have isFirst : first ∈ encode [ch] := isEncoded ▸ List.mem_cons_self
      rw [isEncoded] at plain
      refine takes_unknown isQuote ?_ ⟨isNot (by decide) ?_ isFirst, isNot (by decide) ?_ isFirst,
        isNot (by decide) ?_ isFirst⟩ fun byte isByte => plain byte (List.mem_cons_of_mem _ isByte)
      · by_cases ascii : ch.toNat < 128
        · rw [Cache.encode_cons, Cache.utf8EncodeChar_of_lt ascii] at isEncoded
          rw [← (List.cons.inj isEncoded).1, Cache.toNat_byte (by omega)]
          exact notSimple
        · rw [Cache.encode_cons, Cache.encode_nil, List.append_nil] at isFirst
          exact simpleEscape_of_le
            (Cache.le_of_mem_utf8EncodeChar (Nat.le_of_not_lt ascii) isFirst)
      · exact fun isZero => notDigit (by rw [isZero]; decide)
      · exact notHex
      · exact notUnicode

theorem takes_continuation {terminator : List Char}
    (valid : (Item.continuation terminator).Valid quote) :
    Takes (quoteByte quote) (92 :: encode terminator) (92 :: byteCodes (encode terminator)) := by
  have plain {others : Bytes} (notMarks : ∀ byte ∈ others, byte ≠ 34 ∧ byte ≠ 39 ∧ byte ≠ 92) :
      ∀ byte ∈ others, byte ≠ quoteByte quote ∧ byte ≠ 92 := by
    intro byte isByte
    refine ⟨?_, (notMarks byte isByte).2.2⟩
    obtain isCode | isCode := isQuote
    · rw [quoteByte, isCode]
      exact (notMarks byte isByte).1
    · rw [quoteByte, isCode]
      exact (notMarks byte isByte).2.1
  have isTerminator : terminator ∈ lineTerminators := valid
  simp only [lineTerminators, List.mem_cons, List.not_mem_nil, or_false] at isTerminator
  obtain rfl | rfl | rfl | rfl | rfl := isTerminator
  · exact takes_unknown isQuote rfl (by decide) (plain (List.forall_mem_nil _))
  · exact takes_unknown isQuote rfl (by decide) (plain (List.forall_mem_nil _))
  · exact @takes_unknown _ isQuote 13 [10] rfl (by decide) (plain (by simp))
  · exact @takes_unknown _ isQuote 0xE2 [0x80, 0xA8] rfl (by decide) (plain (by simp))
  · exact @takes_unknown _ isQuote 0xE2 [0x80, 0xA9] rfl (by decide) (plain (by simp))

theorem takes_simple {letter : Char} (valid : (Item.simple letter).Valid quote) :
    Takes (quoteByte quote) (92 :: encode [letter]) [(simpleEscape letter.toNat).getD 0] := by
  have isSimple : (simpleEscape letter.toNat).isSome = true := valid
  have isCode := simpleEscape_cases isSimple
  simp only [List.mem_cons, List.not_mem_nil, or_false] at isCode
  refine ⟨1, Nat.le_add_left _ _, fun fuel text rest => ?_⟩
  rw [Cache.encode_cons, Cache.utf8EncodeChar_of_lt (by omega), Cache.encode_nil,
    List.append_nil, List.cons_append, List.singleton_append,
    parseStringFrom_escaped _ _ _ (backslash_ne_quote isQuote), escapedByte_simple isSimple]
  · intro isHex
    have isNumber := congrArg UInt8.toNat isHex
    rw [Cache.toNat_byte (by omega)] at isNumber
    have isMark : UInt8.toNat 120 = 120 := rfl
    omega
  · intro isUnicode
    have isNumber := congrArg UInt8.toNat isUnicode
    rw [Cache.toNat_byte (by omega)] at isNumber
    have isMark : UInt8.toNat 117 = 117 := rfl
    omega

theorem takes_zero : Takes (quoteByte quote) [92, 48] [0] :=
  ⟨1, by decide, fun fuel text rest =>
    parseStringFrom_escaped fuel text rest (backslash_ne_quote isQuote) (by decide) (by decide)⟩

theorem takes_hex {digits : List Char} (valid : (Item.hex digits).Valid quote) :
    Takes (quoteByte quote) (92 :: 120 :: encode digits) [hexValue digits] := by
  obtain ⟨isLength, areHex⟩ := valid
  have isSmall : hexValue digits < 256 := by
    have isLess := hexValue_lt digits
    rwa [isLength] at isLess
  have nonempty : digits ≠ [] := by
    rintro rfl
    cases isLength
  have isRead := parseHex_encode nonempty areHex isSmall
  rw [← length_encode_hex areHex] at isLength
  obtain ⟨high, low, isEncoded⟩ := List.length_eq_two.mp isLength
  rw [isEncoded] at isRead ⊢
  refine ⟨1, Nat.le_add_left _ _, fun fuel text rest => ?_⟩
  have isValid : (hexValue digits).isValidChar := .inl (by omega)
  rw [show 92 :: 120 :: [high, low] ++ rest = 92 :: 120 :: high :: low :: rest from rfl,
    parseStringFrom_hex _ _ _ (backslash_ne_quote isQuote), isRead, getD_map_codePointBytes,
    if_pos isValid]

theorem takes_unicode {digits : List Char} (valid : (Item.unicode digits).Valid quote) :
    Takes (quoteByte quote) (92 :: 117 :: encode digits)
      (if (hexValue digits).isValidChar then [hexValue digits] else []) := by
  obtain ⟨isLength, areHex⟩ := valid
  have isSmall : hexValue digits < 2 ^ 32 := by
    have isLess := hexValue_lt digits
    rw [isLength] at isLess
    omega
  have nonempty : digits ≠ [] := by
    rintro rfl
    cases isLength
  have isRead := parseHex_encode nonempty areHex isSmall
  have areDigits := isSome_hexDigit areHex
  rw [← length_encode_hex areHex] at isLength
  refine ⟨1, Nat.le_add_left _ _, fun fuel text rest => ?_⟩
  cases isEncoded : encode digits with
  | nil =>
      rw [isEncoded] at isLength
      cases isLength
  | cons first others =>
      rw [isEncoded] at isRead isLength areDigits
      have notBrace : first ≠ 123 := by
        rintro rfl
        cases areDigits 123 List.mem_cons_self
      have isLong : 3 ≤ (others ++ rest).length := by
        rw [List.length_cons] at isLength
        rw [List.length_append]
        omega
      rw [List.cons_append, List.cons_append, List.cons_append,
        parseStringFrom_unicode _ _ _ (backslash_ne_quote isQuote) notBrace isLong,
        ← List.cons_append, List.take_left' isLength, List.drop_left' isLength, isRead,
        getD_map_codePointBytes]

theorem takes_braces {digits : List Char} (valid : (Item.braces digits).Valid quote) :
    Takes (quoteByte quote) (92 :: 117 :: 123 :: (encode digits ++ [125]))
      (if (hexValue digits).isValidChar then [hexValue digits] else []) := by
  obtain ⟨nonempty, areHex, isSmall⟩ := valid
  have isRead := parseHex_encode nonempty areHex (isSmall.trans (by decide : 0x110000 < 2 ^ 32))
  have notBrace : ∀ byte ∈ encode digits, decide (byte ≠ 125) = true := by
    intro byte isByte
    have isDigit := isSome_hexDigit areHex byte isByte
    refine decide_eq_true ?_
    rintro rfl
    cases isDigit
  refine ⟨1, Nat.le_add_left _ _, fun fuel text rest => ?_⟩
  rw [List.cons_append, List.cons_append, List.cons_append, List.append_assoc,
    parseStringFrom_braces _ _ _ (backslash_ne_quote isQuote),
    List.takeWhile_append_of_pos notBrace, List.dropWhile_append_of_pos notBrace,
    List.singleton_append, List.takeWhile_cons_of_neg (by simp),
    List.dropWhile_cons_of_neg (by simp), List.append_nil, isRead, getD_map_codePointBytes]
  rfl

/-- Every part is read as its codes. -/
theorem takes_item {item : Item} (valid : item.Valid quote) :
    Takes (quoteByte quote) (encode item.text) item.writtenCodes := by
  cases item with
  | char ch => exact takes_char isQuote valid
  | simple letter => exact takes_simple isQuote valid
  | zero => exact takes_zero isQuote
  | hex digits => exact takes_hex isQuote valid
  | unicode digits => exact takes_unicode isQuote valid
  | braces digits =>
      have isText : encode (Item.braces digits).text =
          92 :: 117 :: 123 :: (encode digits ++ [125]) :=
        congrArg (92 :: 117 :: 123 :: ·) (Cache.encode_append digits [Char.ofNat 125])
      rw [isText]
      exact takes_braces isQuote valid
  | other ch => exact takes_other isQuote valid
  | continuation terminator => exact takes_continuation isQuote valid

/-- All parts are read, one behind the other. -/
theorem takes_items {items : List Item} (valid : ∀ item ∈ items, item.Valid quote) :
    Takes (quoteByte quote) (encode (items.flatMap Item.text)) (items.flatMap Item.writtenCodes) := by
  induction items with
  | nil =>
      exact ⟨0, le_refl _, fun fuel text rest =>
        congrArg (parseStringFrom _ fuel · rest) (List.append_nil text).symm⟩
  | cons item items ih =>
      rw [List.forall_mem_cons] at valid
      obtain ⟨first, isFirst, takesFirst⟩ := takes_item isQuote valid.1
      obtain ⟨others, areOthers, takesOthers⟩ := ih valid.2
      refine ⟨others + first, ?_, fun fuel text rest => ?_⟩
      · rw [List.flatMap_cons, Cache.encode_append, List.length_append]
        omega
      · rw [List.flatMap_cons, Cache.encode_append, List.append_assoc, ← Nat.add_assoc,
          takesFirst, takesOthers, List.append_assoc, ← codesBytes_append, List.flatMap_cons]

end Parts

namespace Literal

variable (literal : Literal)

/-- The closing quote ends the bytes. -/
theorem bytes_eq : literal.bytes =
    quoteByte literal.quote :: (encode literal.body ++ [quoteByte literal.quote]) := by
  have ascii : literal.quote.toNat < 128 := by
    have := literal.isQuote
    omega
  rw [bytes, Cache.encode_cons, Cache.encode_append, Cache.encode_cons, Cache.encode_nil,
    Cache.utf8EncodeChar_of_lt ascii]
  rfl

/-- The compiler reads a literal as the codes of its parts. -/
theorem parseStringLiteral_bytes (rest : Bytes) :
    parseStringLiteral (literal.bytes ++ rest) =
      some (codesBytes (literal.items.flatMap Item.writtenCodes), rest) := by
  obtain ⟨turns, isTurns, takes⟩ := takes_items literal.isQuote literal.valid
  rw [bytes_eq, List.cons_append, List.append_assoc, List.singleton_append, parseStringLiteral]
  have isBody : encode literal.body = encode (literal.items.flatMap Item.text) := rfl
  rw [← isBody] at takes isTurns
  obtain ⟨fuel, isFuel⟩ : ∃ fuel,
      (encode literal.body ++ quoteByte literal.quote :: rest).length + 1 = fuel + 1 + turns :=
    ⟨(encode literal.body ++ quoteByte literal.quote :: rest).length - turns, by
      rw [List.length_append]
      omega⟩
  rw [isFuel, takes, parseStringFrom_quote, List.nil_append]

end Literal

/-! ## Weights -/

/-- The codes of units, each for itself. -/
def unitCodes (units : List UInt16) : List ℕ := units.map fun unit => privateCode unit.toNat

theorem unitCodes_singleton {code : ℕ} (fits : code < 0x10000) :
    unitCodes [UInt16.ofNat code] = [privateCode code] := by
  rw [unitCodes, List.map_singleton, toNat_unit fits]

theorem unitCodes_encodeUtf16 {code : ℕ} (fits : code < 0x110000) :
    unitCodes (encodeUtf16 code) =
      if code < 0x10000 then [privateCode code]
      else [0xE000 + (code - 0x10000) / 0x400, 0xE400 + (code - 0x10000) % 0x400] := by
  rw [encodeUtf16]
  split
  case isTrue isSmall => exact unitCodes_singleton isSmall
  case isFalse isLarge =>
    have isHigh : privateCode (0xD800 + (code - 0x10000) / 0x400) =
        0xE000 + (code - 0x10000) / 0x400 := by
      rw [privateCode, if_pos ⟨by omega, by omega⟩]
      omega
    have isLow : privateCode (0xDC00 + (code - 0x10000) % 0x400) =
        0xE400 + (code - 0x10000) % 0x400 := by
      rw [privateCode, if_pos ⟨by omega, by omega⟩]
      omega
    rw [unitCodes, List.map_cons, List.map_singleton, toNat_unit (by omega), toNat_unit (by omega),
      isHigh, isLow]

/-- A weight of codes that gives a pair as much as its halves. -/
structure IsWeight (weight : ℕ → ℕ) (half : ℕ) : Prop where
  /-- The weight of a pair. -/
  isPair : ∀ code, 0x10000 ≤ code → weight code = half + half
  /-- The weight of a half. -/
  isHalf : ∀ code, IsPrivate code → weight code = half

theorem privateCode_surrogate {unit : ℕ} (isSurrogate : IsSurrogate unit) :
    IsPrivate (privateCode unit) := by
  rw [privateCode, if_pos isSurrogate]
  obtain ⟨low, high⟩ := isSurrogate
  rw [IsPrivate]
  omega

theorem IsWeight.additive {weight : ℕ → ℕ} {half : ℕ} (isWeight : IsWeight weight half) (high low : ℕ)
    (isHigh : CodeUnits.IsHigh high) (isLow : CodeUnits.IsLow low) :
    weight (CodeUnits.combine high low) = weight (privateCode high) + weight (privateCode low) := by
  have isFirst : IsSurrogate high := ⟨isHigh.1, by have := isHigh.2; omega⟩
  have isSecond : IsSurrogate low := ⟨by have := isLow.1; omega, by have := isLow.2; omega⟩
  rw [isWeight.isPair _ (CodeUnits.le_combine high low),
    isWeight.isHalf _ (privateCode_surrogate isFirst),
    isWeight.isHalf _ (privateCode_surrogate isSecond)]

/-- The weight of codes. -/
def total (weight : ℕ → ℕ) (codes : List ℕ) : ℕ := (codes.map weight).sum

theorem total_append (weight : ℕ → ℕ) (left right : List ℕ) :
    total weight (left ++ right) = total weight left + total weight right := by
  rw [total, List.map_append, List.sum_append]
  rfl

theorem total_flatMap (weight : ℕ → ℕ) (codes : Item → List ℕ) (items : List Item) :
    total weight (items.flatMap codes) = (items.map fun item => total weight (codes item)).sum := by
  induction items with
  | nil => rfl
  | cons item items ih =>
      rw [List.flatMap_cons, total_append, ih, List.map_cons, List.sum_cons]

/-- The weight of a value is that of its units. -/
theorem total_valueCodes {weight : ℕ → ℕ} {half : ℕ} (isWeight : IsWeight weight half) (items : List Item) :
    total weight (valueCodes (items.flatMap Item.units)) =
      (items.map fun item => total weight (unitCodes item.units)).sum := by
  rw [total, valueCodes, CodeUnits.sum_decode privateCode isWeight.additive, List.map_map]
  induction items with
  | nil => rfl
  | cons item items ih =>
      rw [List.flatMap_cons, List.map_append, List.sum_append, ih, List.map_cons, List.sum_cons,
        total, unitCodes, List.map_map]
      rfl

section Meet

variable {weight : ℕ → ℕ} {half : ℕ} (isWeight : IsWeight weight half) {codes : Item → List ℕ} {items : List Item}
  (same : items.flatMap codes = valueCodes (items.flatMap Item.units))
include isWeight same

/-- Codes that are nowhere lighter than the units of their part, and are the value, are
nowhere heavier. -/
theorem total_eq_of_le
    (nowhereLess : ∀ item ∈ items,
      total weight (unitCodes item.units) ≤ total weight (codes item)) :
    ∀ item ∈ items, total weight (unitCodes item.units) = total weight (codes item) := by
  refine CodeUnits.eq_of_sum_le nowhereLess (le_of_eq ?_)
  rw [← total_flatMap, same, total_valueCodes isWeight]

theorem total_eq_of_ge
    (nowhereMore : ∀ item ∈ items,
      total weight (codes item) ≤ total weight (unitCodes item.units)) :
    ∀ item ∈ items, total weight (codes item) = total weight (unitCodes item.units) := by
  refine CodeUnits.eq_of_sum_le nowhereMore (le_of_eq ?_)
  rw [← total_valueCodes isWeight, ← same, total_flatMap]

end Meet

/-- Counts the backslashes and the characters from U+0080 to U+00FF. -/
def misread (code : ℕ) : ℕ := if code = 92 ∨ (0x80 ≤ code ∧ code < 0x100) then 1 else 0

/-- Counts the halves of pairs. -/
def halves (code : ℕ) : ℕ := if 0x10000 ≤ code then 2 else if IsPrivate code then 1 else 0

/-- Counts units. -/
def unitCount (code : ℕ) : ℕ := if 0x10000 ≤ code then 2 else 1

/-- Counts the units that are zero. -/
def zeros (code : ℕ) : ℕ := if code = 0 then 1 else 0

theorem isWeight_misread : IsWeight misread 0 where
  isPair := fun code isLarge => if_neg (by omega)
  isHalf := fun code isPrivate => if_neg (by have := isPrivate.1; omega)

theorem isWeight_halves : IsWeight halves 1 where
  isPair := fun code isLarge => if_pos isLarge
  isHalf := by
    intro code isPrivate
    have isSmall : ¬0x10000 ≤ code := by
      have := isPrivate.2
      omega
    rw [halves, if_neg isSmall, if_pos isPrivate]

theorem isWeight_unitCount : IsWeight unitCount 1 where
  isPair := fun code isLarge => if_pos isLarge
  isHalf := fun code isPrivate => if_neg (by have := isPrivate.2; omega)

theorem isWeight_zeros : IsWeight zeros 0 where
  isPair := fun code isLarge => if_neg (by omega)
  isHalf := fun code isPrivate => if_neg (by have := isPrivate.1; omega)

/-- The weight of the units of a code. -/
theorem total_encodeUtf16 {weight : ℕ → ℕ} {half : ℕ} (isWeight : IsWeight weight half) {code : ℕ} (fits : code < 0x110000) :
    total weight (unitCodes (encodeUtf16 code)) = if IsSurrogate code then half else weight code := by
  rw [unitCodes_encodeUtf16 fits]
  split
  case isTrue isSmall =>
    rw [total, List.map_singleton, List.sum_singleton]
    split
    case isTrue isSurrogate => exact isWeight.isHalf _ (privateCode_surrogate isSurrogate)
    case isFalse notSurrogate => rw [privateCode, if_neg notSurrogate]
  case isFalse isLarge =>
    have notSurrogate : ¬IsSurrogate code := by
      rw [IsSurrogate]
      omega
    have isHigh : IsPrivate (0xE000 + (code - 0x10000) / 0x400) := by
      rw [IsPrivate]
      omega
    have isLow : IsPrivate (0xE400 + (code - 0x10000) % 0x400) := by
      rw [IsPrivate]
      omega
    rw [if_neg notSurrogate, total, List.map_cons, List.map_singleton, List.sum_cons,
      List.sum_singleton, isWeight.isHalf _ isHigh, isWeight.isHalf _ isLow,
      isWeight.isPair _ (by omega)]

/-! ## The weights of parts -/

/-- The code that a part stands for; a continuation stands for nothing. -/
def Item.code : Item → Option ℕ
  | .char ch => some ch.toNat
  | .simple letter => simpleEscape letter.toNat
  | .zero => some 0
  | .hex digits | .unicode digits | .braces digits => some (hexValue digits)
  | .other ch => some ch.toNat
  | .continuation _ => none

theorem not_isSurrogate_char (ch : Char) : ¬IsSurrogate ch.toNat := by
  have isChar : ch.toNat.isValidChar := ch.valid
  rw [Nat.isValidChar] at isChar
  rw [IsSurrogate]
  omega

theorem lt_of_simpleEscape {code unit : ℕ} (isUnit : simpleEscape code = some unit) :
    unit < 128 := by
  have isSome : (simpleEscape code).isSome = true := Option.isSome_iff_exists.mpr ⟨unit, isUnit⟩
  have isCode := simpleEscape_cases isSome
  simp only [List.mem_cons, List.not_mem_nil, or_false] at isCode
  obtain rfl | rfl | rfl | rfl | rfl | rfl | rfl | rfl | rfl := isCode <;> cases isUnit <;> decide

theorem encodeUtf16_of_lt {code : ℕ} (isSmall : code < 0x10000) :
    encodeUtf16 code = [UInt16.ofNat code] :=
  if_pos isSmall

section Code

variable {quote : Char} {item : Item} {code : ℕ}

theorem Item.units_eq (valid : item.Valid quote) (isCode : item.code = some code) :
    item.units = encodeUtf16 code ∧ code < 0x110000 := by
  cases item with
  | char ch =>
      cases isCode
      exact ⟨rfl, toNat_lt_of_char ch⟩
  | simple letter =>
      have isSimple : simpleEscape letter.toNat = some code := isCode
      have isSmall := lt_of_simpleEscape isSimple
      rw [Item.units, isSimple, encodeUtf16_of_lt (by omega)]
      exact ⟨rfl, by omega⟩
  | zero =>
      cases isCode
      exact ⟨rfl, by omega⟩
  | hex digits | unicode digits =>
      cases isCode
      have isSmall := hexValue_lt digits
      rw [valid.1] at isSmall
      rw [Item.units, encodeUtf16_of_lt (by omega)]
      exact ⟨rfl, by omega⟩
  | braces digits =>
      cases isCode
      exact ⟨rfl, valid.2.2⟩
  | other ch =>
      cases isCode
      exact ⟨rfl, toNat_lt_of_char ch⟩
  | continuation terminator => cases isCode

/-- What a part weighs. -/
theorem Item.total_units {weight : ℕ → ℕ} {half : ℕ} (isWeight : IsWeight weight half)
    (valid : item.Valid quote) (isCode : item.code = some code) :
    total weight (unitCodes item.units) = if IsSurrogate code then half else weight code := by
  obtain ⟨isUnits, fits⟩ := Item.units_eq valid isCode
  rw [isUnits, total_encodeUtf16 isWeight fits]

end Code

theorem total_singleton (weight : ℕ → ℕ) (code : ℕ) : total weight [code] = weight code :=
  List.sum_singleton

theorem total_cons (weight : ℕ → ℕ) (code : ℕ) (codes : List ℕ) :
    total weight (code :: codes) = weight code + total weight codes :=
  List.sum_cons

theorem misread_of_surrogate {code : ℕ} (isSurrogate : IsSurrogate code) : misread code = 0 :=
  if_neg (by have := isSurrogate.1; omega)

theorem Item.total_misread {quote : Char} {item : Item} {code : ℕ} (valid : item.Valid quote)
    (isCode : item.code = some code) : total misread (unitCodes item.units) = misread code := by
  rw [Item.total_units isWeight_misread valid isCode]
  split
  case isTrue isSurrogate => exact (misread_of_surrogate isSurrogate).symm
  case isFalse => rfl

theorem misread_le (code : ℕ) : misread code ≤ 1 := by
  rw [misread]
  split
  · exact le_refl _
  · exact Nat.zero_le _

theorem total_misread_high {bytes : Bytes} (high : ∀ byte ∈ bytes, 128 ≤ byte.toNat) :
    total misread (byteCodes bytes) = bytes.length := by
  induction bytes with
  | nil => rfl
  | cons byte bytes ih =>
      rw [List.forall_mem_cons] at high
      have isHigh : misread byte.toNat = 1 := if_pos (.inr ⟨high.1, byte.toNat_lt⟩)
      have isRest := ih high.2
      rw [byteCodes] at isRest ⊢
      rw [List.map_cons, total_cons, isHigh, isRest, List.length_cons, Nat.add_comm]

theorem encode_single (ch : Char) : encode [ch] = String.utf8EncodeChar ch := List.append_nil _

theorem two_le_length_encode {ch : Char} (notAscii : 128 ≤ ch.toNat) :
    2 ≤ (encode [ch]).length := by
  rw [encode_single, String.length_utf8EncodeChar, Char.utf8Size]
  split
  · rename_i isSmall
    have isAscii : ch.toNat ≤ 127 := isSmall
    omega
  split
  · exact le_refl _
  split
  · omega
  · omega

/-- A part whose bytes are read each for itself. -/
def Item.IsNarrow : Item → Prop
  | .char ch => ch.toNat < 128
  | .other _ | .continuation _ => False
  | _ => True

theorem Item.misread_le_written {quote : Char} {item : Item} (valid : item.Valid quote) :
    total misread (unitCodes item.units) ≤ total misread item.writtenCodes ∧
      (total misread (unitCodes item.units) = total misread item.writtenCodes → item.IsNarrow) := by
  have backslash : misread 92 = 1 := rfl
  have digitsCase {digits : List Char} :
      misread (hexValue digits) = total misread
        (if (hexValue digits).isValidChar then [hexValue digits] else []) := by
    split
    case isTrue => exact (total_singleton _ _).symm
    case isFalse invalid =>
      rw [Nat.isValidChar] at invalid
      exact if_neg (by omega)
  cases item with
  | char ch =>
      rw [Item.total_misread valid rfl, Item.writtenCodes, Item.IsNarrow]
      by_cases ascii : ch.toNat < 128
      · rw [encode_single, Cache.utf8EncodeChar_of_lt ascii, byteCodes, List.map_singleton,
          total_singleton, Cache.toNat_byte (by omega)]
        exact ⟨le_refl _, fun _ => ascii⟩
      · have notAscii := Nat.le_of_not_lt ascii
        rw [total_misread_high fun byte isByte =>
          Cache.le_of_mem_utf8EncodeChar notAscii (encode_single ch ▸ isByte)]
        have isLong := two_le_length_encode notAscii
        have isShort := misread_le ch.toNat
        exact ⟨by omega, fun same => by omega⟩
  | simple letter =>
      obtain ⟨unit, isUnit⟩ := Option.isSome_iff_exists.mp
        (show (simpleEscape letter.toNat).isSome = true from valid)
      rw [Item.total_misread valid isUnit, Item.writtenCodes, isUnit, total_singleton]
      exact ⟨le_refl _, fun _ => trivial⟩
  | zero => exact ⟨le_refl _, fun _ => trivial⟩
  | hex digits =>
      rw [Item.total_misread valid rfl, Item.writtenCodes, total_singleton]
      exact ⟨le_refl _, fun _ => trivial⟩
  | unicode | braces =>
      rw [Item.total_misread valid rfl, Item.writtenCodes, ← digitsCase]
      exact ⟨le_refl _, fun _ => trivial⟩
  | other ch =>
      rw [Item.total_misread valid rfl, Item.writtenCodes, total_cons, backslash]
      have notMark : ch.toNat ≠ 92 := by
        intro isMark
        have notSimple := valid.1
        rw [isMark] at notSimple
        cases notSimple
      by_cases ascii : ch.toNat < 128
      · have isZero : misread ch.toNat = 0 := if_neg (by omega)
        exact ⟨by omega, fun same => by omega⟩
      · have notAscii := Nat.le_of_not_lt ascii
        rw [total_misread_high fun byte isByte =>
          Cache.le_of_mem_utf8EncodeChar notAscii (encode_single ch ▸ isByte)]
        have isLong := two_le_length_encode notAscii
        have isShort := misread_le ch.toNat
        exact ⟨by omega, fun same => by omega⟩
  | continuation terminator =>
      rw [Item.writtenCodes, total_cons, backslash]
      have isNothing : total misread (unitCodes (Item.continuation terminator).units) = 0 := rfl
      exact ⟨by omega, fun same => by omega⟩

theorem Item.readAsBytes_iff {quote : Char} (item : Item) (valid : item.Valid quote) :
    item.ReadAsBytes ↔
      item.IsNarrow ∧ ∀ code, item.code = some code → ¬IsSurrogate code := by
  cases item with
  | char ch =>
      exact ⟨fun ascii => ⟨ascii, fun code isCode =>
        Option.some.inj isCode ▸ not_isSurrogate_char ch⟩, fun both => both.1⟩
  | simple letter =>
      refine iff_of_true trivial ⟨trivial, fun code isCode isSurrogate => ?_⟩
      have isSmall := lt_of_simpleEscape isCode
      have := isSurrogate.1
      omega
  | zero =>
      refine iff_of_true trivial ⟨trivial, fun code isCode isSurrogate => ?_⟩
      cases isCode
      have := isSurrogate.1
      omega
  | hex digits =>
      refine iff_of_true trivial ⟨trivial, fun code isCode isSurrogate => ?_⟩
      have isSmall := hexValue_lt digits
      rw [valid.1, Option.some.inj isCode] at isSmall
      have := isSurrogate.1
      omega
  | unicode | braces =>
      exact ⟨fun notSurrogate => ⟨trivial, fun code isCode => Option.some.inj isCode ▸ notSurrogate⟩,
        fun both => both.2 _ rfl⟩
  | other ch => exact iff_of_false id fun both => both.1
  | continuation terminator => exact iff_of_false id fun both => both.1

/-- The codes that the compiler writes are characters. -/
theorem Item.isValidChar_written {quote : Char} {item : Item} (valid : item.Valid quote) :
    ∀ code ∈ item.writtenCodes, code.isValidChar := by
  have bytes {input : Bytes} : ∀ code ∈ byteCodes input, code.isValidChar := by
    intro code isCode
    obtain ⟨byte, -, rfl⟩ := List.mem_map.mp isCode
    have isByte := byte.toNat_lt
    exact .inl (by omega)
  have digitsCase {digits : List Char} :
      ∀ code ∈ (if (hexValue digits).isValidChar then [hexValue digits] else []),
        code.isValidChar := by
    intro code isCode
    split at isCode
    case isTrue isChar => rwa [List.mem_singleton.mp isCode]
    case isFalse => cases isCode
  have backslash : Nat.isValidChar 92 := .inl (by omega)
  cases item with
  | char ch => exact bytes
  | simple letter =>
      obtain ⟨unit, isUnit⟩ := Option.isSome_iff_exists.mp
        (show (simpleEscape letter.toNat).isSome = true from valid)
      have isSmall := lt_of_simpleEscape isUnit
      rw [Item.writtenCodes, isUnit, List.forall_mem_singleton]
      exact .inl (by rw [Option.getD_some]; omega)
  | zero => exact List.forall_mem_singleton.mpr (.inl (by omega))
  | hex digits =>
      have isSmall := hexValue_lt digits
      rw [valid.1] at isSmall
      exact List.forall_mem_singleton.mpr (.inl (by omega))
  | unicode digits => exact digitsCase
  | braces digits => exact digitsCase
  | other ch => exact List.forall_mem_cons.mpr ⟨backslash, bytes⟩
  | continuation terminator => exact List.forall_mem_cons.mpr ⟨backslash, bytes⟩

/-- Narrow parts are written as the code they stand for, unless it is a surrogate. -/
theorem Item.written_of_narrow {quote : Char} {item : Item} (valid : item.Valid quote)
    (narrow : item.IsNarrow) :
    ∃ code, item.code = some code ∧
      item.writtenCodes = if code.isValidChar then [code] else [] := by
  cases item with
  | char ch =>
      refine ⟨_, rfl, ?_⟩
      have ascii : ch.toNat < 128 := narrow
      rw [if_pos (.inl (by omega)), Item.writtenCodes, encode_single,
        Cache.utf8EncodeChar_of_lt ascii, byteCodes, List.map_singleton,
        Cache.toNat_byte (by omega)]
  | simple letter =>
      obtain ⟨unit, isUnit⟩ := Option.isSome_iff_exists.mp
        (show (simpleEscape letter.toNat).isSome = true from valid)
      have isSmall := lt_of_simpleEscape isUnit
      refine ⟨_, isUnit, ?_⟩
      rw [if_pos (.inl (by omega)), Item.writtenCodes, isUnit, Option.getD_some]
  | zero => exact ⟨_, rfl, rfl⟩
  | hex digits =>
      have isSmall := hexValue_lt digits
      rw [valid.1] at isSmall
      refine ⟨_, rfl, ?_⟩
      rw [if_pos (.inl (by omega)), Item.writtenCodes]
  | unicode digits => exact ⟨_, rfl, rfl⟩
  | braces digits => exact ⟨_, rfl, rfl⟩
  | other ch => cases narrow
  | continuation terminator => cases narrow

theorem isValidChar_iff {code : ℕ} (fits : code < 0x110000) :
    code.isValidChar ↔ ¬IsSurrogate code := by
  rw [Nat.isValidChar, IsSurrogate]
  omega

/-- Narrow parts are as light as their units, and lighter when they are a surrogate. -/
theorem Item.halves_le_units {quote : Char} {item : Item} (valid : item.Valid quote)
    (narrow : item.IsNarrow) :
    total halves item.writtenCodes ≤ total halves (unitCodes item.units) ∧
      (total halves item.writtenCodes = total halves (unitCodes item.units) →
        ∀ code, item.code = some code → ¬IsSurrogate code) := by
  obtain ⟨code, isCode, isWritten⟩ := Item.written_of_narrow valid narrow
  have isChar := isValidChar_iff (Item.units_eq valid isCode).2
  rw [Item.total_units isWeight_halves valid isCode, isWritten, isCode]
  by_cases isSurrogate : IsSurrogate code
  · rw [if_neg (not_not.mpr isSurrogate ∘ isChar.mp), if_pos isSurrogate]
    exact ⟨Nat.zero_le _, fun same => absurd same (by decide)⟩
  · rw [if_pos (isChar.mpr isSurrogate), if_neg isSurrogate, total_singleton]
    exact ⟨le_refl _, fun _ other isOther => Option.some.inj isOther ▸ isSurrogate⟩

/-- The units of a character are decoded as the character. -/
theorem decode_encodeUtf16 {code : ℕ} (fits : code < 0x110000) (notSurrogate : ¬IsSurrogate code)
    (units : List ℕ) :
    CodeUnits.decode privateCode ((encodeUtf16 code).map UInt16.toNat ++ units) =
      code :: CodeUnits.decode privateCode units := by
  rw [encodeUtf16]
  split
  case isTrue isSmall =>
    rw [List.map_singleton, toNat_unit isSmall, List.singleton_append, CodeUnits.decode_cons,
      privateCode, if_neg notSurrogate]
    rintro ⟨low, high⟩
    exact notSurrogate ⟨low, by omega⟩
  case isFalse isLarge =>
    have isHigh : CodeUnits.IsHigh (0xD800 + (code - 0x10000) / 0x400) := by
      unfold CodeUnits.IsHigh
      omega
    have isLow : CodeUnits.IsLow (0xDC00 + (code - 0x10000) % 0x400) := by
      unfold CodeUnits.IsLow
      omega
    have isCode : CodeUnits.combine (0xD800 + (code - 0x10000) / 0x400)
        (0xDC00 + (code - 0x10000) % 0x400) = code := by
      unfold CodeUnits.combine
      omega
    rw [List.map_cons, List.map_singleton, toNat_unit (by omega), toNat_unit (by omega),
      List.cons_append, List.singleton_append, CodeUnits.decode_pair _ isHigh isLow, isCode]

/-- A part without deviations is decoded for itself. -/
theorem Item.decode_append {quote : Char} {item : Item} (valid : item.Valid quote)
    (faithful : item.ReadAsBytes) (units : List ℕ) :
    CodeUnits.decode privateCode (item.units.map UInt16.toNat ++ units) =
      item.writtenCodes ++ CodeUnits.decode privateCode units := by
  obtain ⟨narrow, notSurrogate⟩ := (item.readAsBytes_iff valid).mp faithful
  obtain ⟨code, isCode, isWritten⟩ := Item.written_of_narrow valid narrow
  obtain ⟨isUnits, fits⟩ := Item.units_eq valid isCode
  rw [isUnits, decode_encodeUtf16 fits (notSurrogate code isCode), isWritten,
    if_pos ((isValidChar_iff fits).mpr (notSurrogate code isCode)), List.singleton_append]

/-! ## The compiler of expressions -/

theorem written_eq_value_iff {quote : Char} {items : List Item}
    (valid : ∀ item ∈ items, item.Valid quote) :
    items.flatMap Item.writtenCodes = valueCodes (items.flatMap Item.units) ↔
      ∀ item ∈ items, item.ReadAsBytes := by
  constructor
  · intro same item isItem
    have isMisread := total_eq_of_le isWeight_misread same fun other isOther =>
      (Item.misread_le_written (valid other isOther)).1
    have narrow : ∀ other ∈ items, other.IsNarrow := fun other isOther =>
      (Item.misread_le_written (valid other isOther)).2 (isMisread other isOther)
    have isHalved := total_eq_of_ge isWeight_halves same fun other isOther =>
      (Item.halves_le_units (valid other isOther) (narrow other isOther)).1
    exact (item.readAsBytes_iff (valid item isItem)).mpr ⟨narrow item isItem,
      (Item.halves_le_units (valid item isItem) (narrow item isItem)).2 (isHalved item isItem)⟩
  · intro faithful
    rw [valueCodes]
    induction items with
    | nil => rfl
    | cons item items ih =>
        rw [List.forall_mem_cons] at valid faithful
        rw [List.flatMap_cons, List.flatMap_cons, List.map_append,
          Item.decode_append valid.1 faithful.1, ← ih valid.2 faithful.2]

/-- When the compiler of expressions reads a literal as its value. -/
theorem Literal.parseStringLiteral_iff (literal : Literal) (rest : Bytes) :
    parseStringLiteral (literal.bytes ++ rest) = some (literal.value, rest) ↔
      ∀ item ∈ literal.items, item.ReadAsBytes := by
  have isWritten : ∀ code ∈ literal.items.flatMap Item.writtenCodes, code.isValidChar := by
    intro code isCode
    obtain ⟨item, isItem, isMember⟩ := List.mem_flatMap.mp isCode
    exact Item.isValidChar_written (literal.valid item isItem) code isMember
  rw [literal.parseStringLiteral_bytes, Option.some_inj, Prod.mk.injEq, Literal.value,
    codesBytes_inj isWritten (isValidChar_valueCodes _), ← written_eq_value_iff literal.valid]
  exact and_iff_left rfl

/-! ## Parts read as units -/

/-- The units that `unescape_string_literal` reads for a part. -/
def Item.readUnits : Item → List UInt16
  | .zero => [48]
  | .other ch => [UInt16.ofNat ch.toNat]
  | .continuation terminator => terminator.map fun ch => UInt16.ofNat ch.toNat
  | item => item.units

theorem backslash_toNat : ¬(Char.ofNat 92).toNat ≠ 92 := by decide

section UnitTurns

variable (fuel : ℕ) (rest : List Char)

theorem unescapeUnits_char {ch : Char} (notEscape : ch.toNat ≠ 92) :
    unescapeUnits (fuel + 1) (ch :: rest) = encodeUtf16 ch.toNat ++ unescapeUnits fuel rest := by
  rw [unescapeUnits.eq_def]
  exact if_pos notEscape

theorem unescapeUnits_simple {letter : Char} {unit : ℕ}
    (isUnit : simpleEscape letter.toNat = some unit) :
    unescapeUnits (fuel + 1) (Char.ofNat 92 :: letter :: rest) =
      UInt16.ofNat unit :: unescapeUnits fuel rest := by
  rw [unescapeUnits.eq_def]
  dsimp only
  rw [if_neg backslash_toNat, isUnit]

theorem unescapeUnits_hex :
    unescapeUnits (fuel + 1) (Char.ofNat 92 :: Char.ofNat 120 :: rest) =
      hexUnits (rest.take 2) ++ unescapeUnits fuel (rest.drop 2) := rfl

theorem unescapeUnits_braces :
    unescapeUnits (fuel + 1) (Char.ofNat 92 :: Char.ofNat 117 :: Char.ofNat 123 :: rest) =
      ((parseHex (2 ^ 32) (encode (rest.takeWhile fun h => h.toNat ≠ 125))).map
          encodeUtf16).getD [] ++
        unescapeUnits fuel ((rest.dropWhile fun h => h.toNat ≠ 125).drop 1) := rfl

theorem unescapeUnits_unicode (notBrace : rest.head?.map Char.toNat ≠ some 123) :
    unescapeUnits (fuel + 1) (Char.ofNat 92 :: Char.ofNat 117 :: rest) =
      hexUnits (rest.take 4) ++ unescapeUnits fuel (rest.drop 4) := by
  rw [unescapeUnits.eq_def]
  exact if_neg notBrace

theorem unescapeUnits_other {ch : Char} (notSimple : simpleEscape ch.toNat = none)
    (notHex : ch.toNat ≠ 120) (notUnicode : ch.toNat ≠ 117) :
    unescapeUnits (fuel + 1) (Char.ofNat 92 :: ch :: rest) =
      UInt16.ofNat ch.toNat :: unescapeUnits fuel rest := by
  rw [unescapeUnits.eq_def]
  dsimp only
  rw [if_neg backslash_toNat, notSimple]
  dsimp only
  rw [if_neg notHex, if_neg notUnicode]

end UnitTurns

/-- Some turns of `unescape_string_literal` read a text. -/
def Reads (text : List Char) (units : List UInt16) : Prop :=
  ∃ turns ≤ text.length, ∀ fuel rest,
    unescapeUnits (fuel + turns) (text ++ rest) = units ++ unescapeUnits fuel rest

theorem Reads.append {left right : List Char} {leftUnits rightUnits : List UInt16}
    (readsLeft : Reads left leftUnits) (readsRight : Reads right rightUnits) :
    Reads (left ++ right) (leftUnits ++ rightUnits) := by
  obtain ⟨first, isFirst, takesFirst⟩ := readsLeft
  obtain ⟨others, areOthers, takesOthers⟩ := readsRight
  refine ⟨others + first, ?_, fun fuel rest => ?_⟩
  · rw [List.length_append]
    omega
  · rw [List.append_assoc, ← Nat.add_assoc, takesFirst, takesOthers, List.append_assoc]

theorem hexUnits_eq {digits : List Char} (nonempty : digits ≠ [])
    (areHex : ∀ digit ∈ digits, IsHex digit) (small : hexValue digits < 0x10000) :
    hexUnits digits = [UInt16.ofNat (hexValue digits)] := by
  rw [hexUnits, parseHex_encode nonempty areHex small]
  rfl

theorem ne_of_isHex {digit : Char} (isHex : IsHex digit) {mark : ℕ} (small : mark < 256)
    (notHex : hexDigit (UInt8.ofNat mark) = none) : digit.toNat ≠ mark := by
  rintro rfl
  have isSome := isHex.2
  rw [notHex] at isSome
  cases isSome

/-- Every part is read as its units. -/
theorem reads_item {quote : Char} {item : Item} (valid : item.Valid quote) :
    Reads item.text item.readUnits := by
  cases item with
  | char ch => exact ⟨1, le_refl _, fun fuel rest => unescapeUnits_char fuel rest valid.2.1⟩
  | simple letter =>
      obtain ⟨unit, isUnit⟩ := Option.isSome_iff_exists.mp
        (show (simpleEscape letter.toNat).isSome = true from valid)
      refine ⟨1, Nat.le_add_left _ _, fun fuel rest => ?_⟩
      rw [Item.readUnits, Item.units, isUnit]
      · exact unescapeUnits_simple fuel rest isUnit
      · exact fun isZero => Item.noConfusion isZero
      · exact fun _ isOther => Item.noConfusion isOther
      · exact fun _ isContinuation => Item.noConfusion isContinuation
  | zero => exact ⟨1, by decide, fun fuel rest => rfl⟩
  | hex digits =>
      obtain ⟨isLength, areHex⟩ := valid
      have isSmall := hexValue_lt digits
      rw [isLength] at isSmall
      have nonempty : digits ≠ [] := by
        rintro rfl
        cases isLength
      refine ⟨1, Nat.le_add_left _ _, fun fuel rest => ?_⟩
      refine (unescapeUnits_hex fuel (digits ++ rest)).trans ?_
      rw [List.take_left' isLength, List.drop_left' isLength,
        hexUnits_eq nonempty areHex (by omega)]
      rfl
  | unicode digits =>
      obtain ⟨isLength, areHex⟩ := valid
      have isSmall := hexValue_lt digits
      rw [isLength] at isSmall
      cases digits with
      | nil => cases isLength
      | cons digit digits =>
          have notBrace : digit.toNat ≠ 123 :=
            ne_of_isHex (areHex digit List.mem_cons_self) (by omega) rfl
          refine ⟨1, Nat.le_add_left _ _, fun fuel rest => ?_⟩
          refine (unescapeUnits_unicode fuel (digit :: digits ++ rest)
            fun isBrace => notBrace (Option.some.inj isBrace)).trans ?_
          rw [List.take_left' isLength, List.drop_left' isLength,
            hexUnits_eq (List.cons_ne_nil _ _) areHex (by omega)]
          rfl
  | braces digits =>
      obtain ⟨nonempty, areHex, isSmall⟩ := valid
      have isRead := parseHex_encode nonempty areHex
        (isSmall.trans (by decide : 0x110000 < 2 ^ 32))
      have notBrace : ∀ digit ∈ digits, decide (digit.toNat ≠ 125) = true := fun digit isDigit =>
        decide_eq_true (ne_of_isHex (areHex digit isDigit) (by omega) rfl)
      refine ⟨1, Nat.le_add_left _ _, fun fuel rest => ?_⟩
      have isText : (Item.braces digits).text ++ rest = Char.ofNat 92 :: Char.ofNat 117 ::
          Char.ofNat 123 :: (digits ++ Char.ofNat 125 :: rest) := by
        simp [Item.text, Item.escaped]
      rw [isText, unescapeUnits_braces, List.takeWhile_append_of_pos notBrace,
        List.dropWhile_append_of_pos notBrace, List.takeWhile_cons_of_neg (by decide),
        List.dropWhile_cons_of_neg (by decide), List.append_nil, isRead]
      rfl
  | other ch =>
      exact ⟨1, Nat.le_add_left _ _, fun fuel rest =>
        unescapeUnits_other fuel rest valid.1 valid.2.1 valid.2.2.1⟩
  | continuation terminator =>
      have isTerminator : terminator ∈ lineTerminators := valid
      simp only [lineTerminators, List.mem_cons, List.not_mem_nil, or_false] at isTerminator
      obtain rfl | rfl | rfl | rfl | rfl := isTerminator
      · exact ⟨1, by decide, fun fuel rest => rfl⟩
      · exact ⟨1, by decide, fun fuel rest => rfl⟩
      · exact ⟨2, by decide, fun fuel rest => rfl⟩
      · exact ⟨1, by decide, fun fuel rest => rfl⟩
      · exact ⟨1, by decide, fun fuel rest => rfl⟩

theorem reads_items {quote : Char} {items : List Item}
    (valid : ∀ item ∈ items, item.Valid quote) :
    Reads (items.flatMap Item.text) (items.flatMap Item.readUnits) := by
  induction items with
  | nil => exact ⟨0, le_refl _, fun _ _ => rfl⟩
  | cons item items ih =>
      rw [List.forall_mem_cons] at valid
      rw [List.flatMap_cons, List.flatMap_cons]
      exact (reads_item valid.1).append (ih valid.2)

theorem isValidChar_unitCodes (units : List UInt16) :
    ∀ code ∈ unitCodes units, code.isValidChar := by
  intro code isCode
  obtain ⟨unit, -, rfl⟩ := List.mem_map.mp isCode
  exact isValidChar_privateCode unit.toNat_lt

theorem asBytes_utf16UnitsToString (units : List UInt16) :
    asBytes (utf16UnitsToString units) = codesBytes (unitCodes units) := by
  rw [utf16UnitsToString_eq, Cache.asBytes_ofList, codesBytes_eq (isValidChar_unitCodes units),
    unitCodes, List.map_map]
  rfl

/-- The text between the quotes is read as the units of its parts. -/
theorem Literal.unescapeBytes_body (literal : Literal) :
    unescapeBytes (encode literal.body) =
      some (codesBytes (unitCodes (literal.items.flatMap Item.readUnits))) := by
  obtain ⟨turns, isTurns, takes⟩ := reads_items literal.valid
  have isText : literal.items.flatMap Item.text = literal.body := rfl
  rw [isText] at isTurns takes
  have isRead := takes (literal.body.length - turns + 1) []
  rw [List.append_nil, show literal.body.length - turns + 1 + turns = literal.body.length + 1 by
    omega] at isRead
  rw [unescapeBytes, Cache.fromUtf8_encode, Option.map_some, String.toList_ofList,
    unescapeStringLiteral, isRead, asBytes_utf16UnitsToString]
  exact congrArg some (congrArg (codesBytes ∘ unitCodes) (List.append_nil _))

/-! ## Units that are no pairs -/

theorem unitCodes_flatMap (units : Item → List UInt16) (items : List Item) :
    unitCodes (items.flatMap units) = items.flatMap fun item => unitCodes (units item) :=
  List.map_flatMap

/-- The units of a part are unpaired when those of the text are. -/
theorem unpaired_of_mem {items : List Item} {item : Item} (isItem : item ∈ items)
    (unpaired : CodeUnits.Unpaired ((items.flatMap Item.units).map UInt16.toNat)) :
    CodeUnits.Unpaired (item.units.map UInt16.toNat) := by
  obtain ⟨before, after, rfl⟩ := List.append_of_mem isItem
  rw [List.flatMap_append, List.flatMap_cons, List.map_append, List.map_append] at unpaired
  exact unpaired.right_of_append.left_of_append

/-- A character whose units are unpaired has one unit. -/
theorem lt_of_unpaired {code : ℕ} (fits : code < 0x110000)
    (unpaired : CodeUnits.Unpaired ((encodeUtf16 code).map UInt16.toNat)) : code < 0x10000 := by
  by_contra isLarge
  rw [encodeUtf16, if_neg isLarge, List.map_cons, List.map_singleton, toNat_unit (by omega),
    toNat_unit (by omega), CodeUnits.Unpaired, List.isChain_pair] at unpaired
  refine unpaired ⟨?_, ?_⟩
  · unfold CodeUnits.IsHigh
    omega
  · unfold CodeUnits.IsLow
    omega

theorem Item.readUnits_eq {item : Item} (faithful : item.ReadAsUnits)
    (unpaired : CodeUnits.Unpaired (item.units.map UInt16.toNat)) :
    item.readUnits = item.units := by
  cases item with
  | zero => cases faithful
  | continuation terminator => cases faithful
  | other ch =>
      have isSmall := lt_of_unpaired (toNat_lt_of_char ch) unpaired
      rw [Item.readUnits, Item.units, encodeUtf16_of_lt isSmall]
  | char ch => rfl
  | simple letter => rfl
  | hex digits => rfl
  | unicode digits => rfl
  | braces digits => rfl

theorem zeros_terminator {terminator : List Char} (isTerminator : terminator ∈ lineTerminators) :
    total zeros (unitCodes (Item.continuation terminator).readUnits) = 0 ∧
      0 < total unitCount (unitCodes (Item.continuation terminator).readUnits) := by
  simp only [lineTerminators, List.mem_cons, List.not_mem_nil, or_false] at isTerminator
  obtain rfl | rfl | rfl | rfl | rfl := isTerminator
  · exact ⟨rfl, by decide⟩
  · exact ⟨rfl, by decide⟩
  · exact ⟨rfl, by decide⟩
  · exact ⟨rfl, by decide⟩
  · exact ⟨rfl, by decide⟩

/-- An escaped zero is the only part that is read with fewer zeros. -/
theorem Item.zeros_le {quote : Char} {item : Item} (valid : item.Valid quote)
    (unpaired : CodeUnits.Unpaired (item.units.map UInt16.toNat)) :
    total zeros (unitCodes item.readUnits) ≤ total zeros (unitCodes item.units) ∧
      (total zeros (unitCodes item.readUnits) = total zeros (unitCodes item.units) →
        item ≠ .zero) := by
  by_cases isZero : item = .zero
  · subst isZero
    exact ⟨by decide, fun same => absurd same (by decide)⟩
  · refine ⟨?_, fun _ => isZero⟩
    by_cases faithful : item.ReadAsUnits
    · rw [Item.readUnits_eq faithful unpaired]
    · cases item with
      | continuation terminator =>
          rw [(zeros_terminator valid).1]
          exact Nat.zero_le _
      | zero => exact absurd rfl isZero
      | _ => exact absurd trivial faithful

/-- A continuation is the only part that is read with more units. -/
theorem Item.unitCount_le {quote : Char} {item : Item} (valid : item.Valid quote)
    (unpaired : CodeUnits.Unpaired (item.units.map UInt16.toNat)) (notZero : item ≠ .zero) :
    total unitCount (unitCodes item.units) ≤ total unitCount (unitCodes item.readUnits) ∧
      (total unitCount (unitCodes item.units) = total unitCount (unitCodes item.readUnits) →
        item.ReadAsUnits) := by
  by_cases faithful : item.ReadAsUnits
  · rw [Item.readUnits_eq faithful unpaired]
    exact ⟨le_refl _, fun _ => faithful⟩
  · cases item with
    | continuation terminator =>
        have isMore := (zeros_terminator valid).2
        have isNothing : total unitCount (unitCodes (Item.continuation terminator).units) = 0 := rfl
        exact ⟨by omega, fun same => by omega⟩
    | zero => exact absurd rfl notZero
    | _ => exact absurd trivial faithful

theorem readUnits_eq_value_iff {quote : Char} {items : List Item}
    (valid : ∀ item ∈ items, item.Valid quote) :
    unitCodes (items.flatMap Item.readUnits) = valueCodes (items.flatMap Item.units) ↔
      CodeUnits.Unpaired ((items.flatMap Item.units).map UInt16.toNat) ∧
        ∀ item ∈ items, item.ReadAsUnits := by
  constructor
  · intro same
    have unpaired : CodeUnits.Unpaired ((items.flatMap Item.units).map UInt16.toNat) := by
      refine CodeUnits.unpaired_of_decode privateCode fun code isCode => ?_
      rw [← valueCodes, ← same] at isCode
      obtain ⟨unit, -, rfl⟩ := List.mem_map.mp isCode
      exact codeOfUnit_lt unit
    refine ⟨unpaired, fun item isItem => ?_⟩
    rw [unitCodes_flatMap] at same
    have isZeros := total_eq_of_ge isWeight_zeros same fun other isOther =>
      (Item.zeros_le (valid other isOther) (unpaired_of_mem isOther unpaired)).1
    have notZero : ∀ other ∈ items, other ≠ .zero := fun other isOther =>
      (Item.zeros_le (valid other isOther) (unpaired_of_mem isOther unpaired)).2
        (isZeros other isOther)
    have isCount := total_eq_of_le isWeight_unitCount same fun other isOther =>
      (Item.unitCount_le (valid other isOther) (unpaired_of_mem isOther unpaired)
        (notZero other isOther)).1
    exact (Item.unitCount_le (valid item isItem) (unpaired_of_mem isItem unpaired)
      (notZero item isItem)).2 (isCount item isItem)
  · rintro ⟨unpaired, faithful⟩
    have isRead : items.flatMap Item.readUnits = items.flatMap Item.units :=
      List.flatMap_congr fun item isItem =>
        Item.readUnits_eq (faithful item isItem) (unpaired_of_mem isItem unpaired)
    rw [isRead, valueCodes, CodeUnits.decode_eq_map _ unpaired, unitCodes, List.map_map]
    rfl

/-- When `unescape_string_literal` reads a literal as its value. -/
theorem Literal.unescapeBytes_iff (literal : Literal) :
    unescapeBytes (encode literal.body) = some literal.value ↔
      CodeUnits.Unpaired (literal.units.map UInt16.toNat) ∧
        ∀ item ∈ literal.items, item.ReadAsUnits := by
  rw [literal.unescapeBytes_body, Option.some_inj, Literal.value,
    codesBytes_inj (isValidChar_unitCodes _) (isValidChar_valueCodes _)]
  exact readUnits_eq_value_iff literal.valid

/-! ## Literals taken whole -/

theorem length_le_unitCount (codes : List ℕ) : codes.length ≤ total unitCount codes := by
  induction codes with
  | nil => exact le_refl _
  | cons code codes ih =>
      have isOne : 1 ≤ unitCount code := by
        rw [unitCount]
        split
        · omega
        · exact le_refl _
      rw [List.length_cons, total_cons]
      omega

theorem unitCount_le_two (code : ℕ) : unitCount code ≤ 2 := by
  rw [unitCount]
  split
  · exact le_refl _
  · omega

/-- The codes of the characters of a part. -/
def Item.textCodes (item : Item) : List ℕ := item.text.map Char.toNat

/-- An escape is longer than what it stands for. -/
theorem Item.unitCount_le_text {quote : Char} {item : Item} (valid : item.Valid quote) :
    total unitCount (unitCodes item.units) ≤ total unitCount item.textCodes ∧
      (total unitCount (unitCodes item.units) = total unitCount item.textCodes →
        item.IsPlain) := by
  have isText := length_le_unitCount item.textCodes
  have isLength : item.textCodes.length = item.text.length := List.length_map _
  have atMost {code : ℕ} (isCode : item.code = some code) :
      total unitCount (unitCodes item.units) ≤ 2 := by
    rw [Item.total_units isWeight_unitCount valid isCode]
    split
    · omega
    · exact unitCount_le_two code
  have small {code : ℕ} (isCode : item.code = some code) (isSmall : code < 128) :
      total unitCount (unitCodes item.units) = 1 := by
    rw [Item.total_units isWeight_unitCount valid isCode, unitCount, if_neg (by omega : ¬_ ≤ code)]
    split
    · rfl
    · rfl
  cases item with
  | char ch =>
      rw [Item.total_units isWeight_unitCount valid rfl, if_neg (not_isSurrogate_char ch)]
      exact ⟨le_of_eq (total_singleton _ _).symm, fun _ => trivial⟩
  | simple letter =>
      obtain ⟨unit, isUnit⟩ := Option.isSome_iff_exists.mp
        (show (simpleEscape letter.toNat).isSome = true from valid)
      have isOne := small isUnit (lt_of_simpleEscape isUnit)
      have isTwo : (Item.simple letter).text.length = 2 := rfl
      exact ⟨by omega, fun same => by omega⟩
  | zero =>
      have isOne := small rfl (by omega)
      have isTwo : Item.zero.text.length = 2 := rfl
      exact ⟨by omega, fun same => by omega⟩
  | hex digits =>
      have isTwo := atMost rfl
      have isLong : (Item.hex digits).text.length = digits.length + 2 := rfl
      have hasDigits := valid.1
      exact ⟨by omega, fun same => by omega⟩
  | unicode digits =>
      have isTwo := atMost rfl
      have isLong : (Item.unicode digits).text.length = digits.length + 2 := rfl
      have hasDigits := valid.1
      exact ⟨by omega, fun same => by omega⟩
  | braces digits =>
      have isTwo := atMost rfl
      have isLong : (Item.braces digits).text.length = digits.length + 4 := by
        simp [Item.text, Item.escaped]
      exact ⟨by omega, fun same => by omega⟩
  | other ch =>
      have isMore : total unitCount (Item.other ch).textCodes = 1 + unitCount ch.toNat := rfl
      have isCode := Item.total_units isWeight_unitCount valid rfl
      rw [if_neg (not_isSurrogate_char ch)] at isCode
      exact ⟨by omega, fun same => by omega⟩
  | continuation terminator =>
      have isNothing : total unitCount (unitCodes (Item.continuation terminator).units) = 0 := rfl
      have isLong : (Item.continuation terminator).text.length = terminator.length + 1 := rfl
      exact ⟨by omega, fun same => by omega⟩

theorem textCodes_eq_value_iff {quote : Char} {items : List Item}
    (valid : ∀ item ∈ items, item.Valid quote) :
    items.flatMap Item.textCodes = valueCodes (items.flatMap Item.units) ↔
      ∀ item ∈ items, item.IsPlain := by
  constructor
  · intro same item isItem
    have isCount := total_eq_of_le isWeight_unitCount same fun other isOther =>
      (Item.unitCount_le_text (valid other isOther)).1
    exact (Item.unitCount_le_text (valid item isItem)).2 (isCount item isItem)
  · intro plain
    rw [valueCodes]
    induction items with
    | nil => rfl
    | cons item items ih =>
        rw [List.forall_mem_cons] at valid plain
        cases item with
        | char ch =>
            rw [List.flatMap_cons, List.flatMap_cons, List.map_append, Item.units,
              decode_encodeUtf16 (toNat_lt_of_char ch) (not_isSurrogate_char ch),
              ← ih valid.2 plain.2]
            rfl
        | _ => exact absurd plain.1 id

namespace Literal

variable (literal : Literal)

/-- When the text between the quotes is the value of a literal. -/
theorem encode_body_iff :
    encode literal.body = literal.value ↔ ∀ item ∈ literal.items, item.IsPlain := by
  have isChar : ∀ code ∈ literal.body.map Char.toNat, code.isValidChar := by
    intro code isCode
    obtain ⟨ch, -, rfl⟩ := List.mem_map.mp isCode
    exact ch.valid
  have isBody : encode literal.body = codesBytes (literal.body.map Char.toNat) := by
    rw [codesBytes_eq isChar, List.map_map]
    congr 1
    exact ((List.map_congr_left fun ch _ => Char.ofNat_toNat ch).trans (List.map_id _)).symm
  have isCodes : literal.body.map Char.toNat = literal.items.flatMap Item.textCodes :=
    List.map_flatMap
  rw [isBody, Literal.value, codesBytes_inj isChar (isValidChar_valueCodes _), isCodes]
  exact textCodes_eq_value_iff literal.valid

end Literal

/-! ## The closing quote -/

section Raw

variable {quote : Char} (isQuote : quote.toNat = 34 ∨ quote.toNat = 39)

theorem rawStringFrom_plain {bytes : Bytes}
    (plain : ∀ byte ∈ bytes, byte ≠ quoteByte quote ∧ byte ≠ 92) (out rest : Bytes) :
    rawStringFrom (quoteByte quote) false out (bytes ++ rest) =
      rawStringFrom (quoteByte quote) false (out ++ bytes) rest := by
  induction bytes generalizing out with
  | nil => rw [List.append_nil, List.nil_append]
  | cons byte bytes ih =>
      rw [List.forall_mem_cons] at plain
      rw [List.cons_append, rawStringFrom, if_neg (by decide), if_neg plain.1.1,
        decide_eq_false plain.1.2, ih plain.2, List.append_assoc, List.singleton_append]

include isQuote

theorem plain_encode_all {chars : List Char}
    (plain : ∀ ch ∈ chars, ch ≠ quote ∧ ch.toNat ≠ 92) :
    ∀ byte ∈ encode chars, byte ≠ quoteByte quote ∧ byte ≠ 92 := by
  intro byte isByte
  obtain ⟨ch, isChar, isMember⟩ := List.mem_flatMap.mp isByte
  exact plain_encode isQuote (plain ch isChar).1 (plain ch isChar).2 byte
    (encode_single ch ▸ isMember)

/-- An escape is passed over, whatever its first character is. -/
theorem rawStringFrom_escape {ch : Char} {chars : List Char}
    (plain : ∀ other ∈ chars, other ≠ quote ∧ other.toNat ≠ 92) (out rest : Bytes) :
    rawStringFrom (quoteByte quote) false out (encode (Char.ofNat 92 :: ch :: chars) ++ rest) =
      rawStringFrom (quoteByte quote) false (out ++ encode (Char.ofNat 92 :: ch :: chars)) rest := by
  have isPlain := plain_encode_all isQuote plain
  obtain ⟨first, others, isEncoded, isOthers⟩ : ∃ first others,
      encode (ch :: chars) = first :: others ∧
        ∀ byte ∈ others, byte ≠ quoteByte quote ∧ byte ≠ 92 := by
    rw [Cache.encode_cons]
    obtain ⟨byte, -, isByte⟩ | ⟨nonempty, isHigh⟩ := Cache.utf8EncodeChar_cases ch
    · exact ⟨byte, encode chars, by rw [isByte, List.singleton_append], isPlain⟩
    · obtain ⟨byte, others, isBytes⟩ := List.exists_cons_of_ne_nil nonempty
      refine ⟨byte, others ++ encode chars, by rw [isBytes, List.cons_append], ?_⟩
      intro other isOther
      obtain isFirst | isRest := List.mem_append.mp isOther
      · have isLarge := isHigh other (isBytes ▸ List.mem_cons_of_mem _ isFirst)
        constructor
        · rintro rfl
          rw [toNat_quoteByte isQuote] at isLarge
          omega
        · rintro rfl
          exact absurd isLarge (by decide)
      · exact isPlain other isRest
  have isText : encode (Char.ofNat 92 :: ch :: chars) = 92 :: first :: others := by
    rw [Cache.encode_cons, isEncoded]
    rfl
  rw [isText, List.cons_append, List.cons_append, rawStringFrom, if_neg (by decide),
    if_neg (backslash_ne_quote isQuote), decide_eq_true rfl, rawStringFrom, if_pos rfl,
    rawStringFrom_plain isOthers]
  congr 1
  simp

theorem rawStringFrom_item {item : Item} (valid : item.Valid quote) (out rest : Bytes) :
    rawStringFrom (quoteByte quote) false out (encode item.text ++ rest) =
      rawStringFrom (quoteByte quote) false (out ++ encode item.text) rest := by
  have isPlain {ch : Char} (notMarks : ch.toNat ≠ 34 ∧ ch.toNat ≠ 39 ∧ ch.toNat ≠ 92) :
      ch ≠ quote ∧ ch.toNat ≠ 92 := by
    refine ⟨?_, notMarks.2.2⟩
    rintro rfl
    omega
  have areHex {digits : List Char} (isHex : ∀ digit ∈ digits, IsHex digit) :
      ∀ digit ∈ digits, digit ≠ quote ∧ digit.toNat ≠ 92 := fun digit isDigit =>
    isPlain ⟨ne_of_isHex (isHex digit isDigit) (by omega) rfl,
      ne_of_isHex (isHex digit isDigit) (by omega) rfl,
      ne_of_isHex (isHex digit isDigit) (by omega) rfl⟩
  cases item with
  | char ch => exact rawStringFrom_plain (plain_encode isQuote valid.1 valid.2.1) out rest
  | simple | zero | other =>
      exact rawStringFrom_escape isQuote (List.forall_mem_nil _) out rest
  | hex | unicode => exact rawStringFrom_escape isQuote (areHex valid.2) out rest
  | braces digits =>
      refine rawStringFrom_escape isQuote ?_ out rest
      intro other isOther
      obtain rfl | isOther := List.mem_cons.mp isOther
      · exact isPlain (by decide)
      obtain isDigit | isBrace := List.mem_append.mp isOther
      · exact areHex valid.2.1 other isDigit
      · rw [List.mem_singleton.mp isBrace]
        exact isPlain (by decide)
  | continuation terminator =>
      have isTerminator : terminator ∈ lineTerminators := valid
      simp only [lineTerminators, List.mem_cons, List.not_mem_nil, or_false] at isTerminator
      obtain rfl | rfl | rfl | rfl | rfl := isTerminator
      · exact rawStringFrom_escape isQuote (List.forall_mem_nil _) out rest
      · exact rawStringFrom_escape isQuote (List.forall_mem_nil _) out rest
      · exact rawStringFrom_escape isQuote (List.forall_mem_singleton.mpr (isPlain (by decide)))
          out rest
      · exact rawStringFrom_escape isQuote (List.forall_mem_nil _) out rest
      · exact rawStringFrom_escape isQuote (List.forall_mem_nil _) out rest

theorem rawStringFrom_items {items : List Item} (valid : ∀ item ∈ items, item.Valid quote)
    (out rest : Bytes) :
    rawStringFrom (quoteByte quote) false out
        (encode (items.flatMap Item.text) ++ quoteByte quote :: rest) =
      some (out ++ encode (items.flatMap Item.text), rest) := by
  induction items generalizing out with
  | nil =>
      rw [List.flatMap_nil, Cache.encode_nil, List.nil_append, List.append_nil, rawStringFrom,
        if_neg (by decide), if_pos rfl]
  | cons item items ih =>
      rw [List.forall_mem_cons] at valid
      rw [List.flatMap_cons, Cache.encode_append, List.append_assoc,
        rawStringFrom_item isQuote valid.1, ih valid.2, List.append_assoc]

end Raw

namespace Literal

variable (literal : Literal)

/-- `ArithParser::parse_string` finds the closing quote of a literal. -/
theorem parseString_bytes (rest : Bytes) :
    parseString (literal.bytes ++ rest) =
      (unescapeBytes (encode literal.body)).map fun text => (text, rest) := by
  have isRaw := rawStringFrom_items literal.isQuote literal.valid [] rest
  rw [List.nil_append] at isRaw
  rw [bytes_eq, List.cons_append, List.append_assoc, List.singleton_append, parseString, body,
    isRaw, Option.bind_some]

theorem parseString_iff (rest : Bytes) :
    parseString (literal.bytes ++ rest) = some (literal.value, rest) ↔
      CodeUnits.Unpaired (literal.units.map UInt16.toNat) ∧
        ∀ item ∈ literal.items, item.ReadAsUnits := by
  rw [← literal.unescapeBytes_iff, parseString_bytes, literal.unescapeBytes_body, Option.map_some,
    Option.some_inj, Option.some_inj, Prod.mk.injEq]
  exact and_iff_left rfl

/-- A text that starts with a literal is taken for a simple one when it ends in its quote. -/
theorem isSimpleStringLiteral_iff (rest : Bytes) :
    isSimpleStringLiteral (literal.bytes ++ rest) = true ↔
      rest = [] ∨ rest.getLast? = some (quoteByte literal.quote) := by
  have isHead : (literal.bytes ++ rest).head? = some (quoteByte literal.quote) := by
    rw [bytes_eq]
    rfl
  have isLong : 2 ≤ (literal.bytes ++ rest).length := by
    rw [bytes_eq]
    simp
    omega
  have isLast : (literal.bytes ++ rest).getLast? = some (quoteByte literal.quote) ↔
      rest = [] ∨ rest.getLast? = some (quoteByte literal.quote) := by
    cases rest using List.reverseRecOn with
    | nil =>
        have isEnd : literal.bytes =
            (quoteByte literal.quote :: encode literal.body) ++ [quoteByte literal.quote] :=
          literal.bytes_eq
        rw [List.append_nil, isEnd, List.getLast?_concat]
        exact iff_of_true rfl (.inl rfl)
    | append_singleton rest byte => simp [← List.append_assoc]
  rw [← isLast, isSimpleStringLiteral, decide_eq_true isLong, isHead, Bool.true_and]
  obtain isCode | isCode := literal.isQuote
  · have isByte : quoteByte literal.quote = 34 := by rw [quoteByte, isCode]; rfl
    rw [isByte]
    simp
  · have isByte : quoteByte literal.quote = 39 := by rw [quoteByte, isCode]; rfl
    rw [isByte]
    simp

theorem isSimpleStringLiteral_bytes : isSimpleStringLiteral literal.bytes = true := by
  have isSimple := (literal.isSimpleStringLiteral_iff []).mpr (.inl rfl)
  rwa [List.append_nil] at isSimple

theorem evalLiteral_bytes : evalLiteral literal.bytes = unescapeBytes (encode literal.body) := by
  rw [evalLiteral, if_pos literal.isSimpleStringLiteral_bytes]
  congr 1
  rw [bytes_eq]
  simp

theorem evalLiteral_iff :
    evalLiteral literal.bytes = some literal.value ↔
      CodeUnits.Unpaired (literal.units.map UInt16.toNat) ∧
        ∀ item ∈ literal.items, item.ReadAsUnits := by
  rw [evalLiteral_bytes, unescapeBytes_iff]

end Literal

/-! ## Programs of one literal -/

/-- A byte that is in no pattern ends what patterns may take. -/
theorem find_isPrefixOf_append {patterns : List Bytes} {mark : UInt8}
    (notMember : ∀ pattern ∈ patterns, mark ∉ pattern) (left right : Bytes) :
    (patterns.find? fun pattern => pattern.isPrefixOf (left ++ mark :: right)) =
      patterns.find? fun pattern => pattern.isPrefixOf left := by
  refine List.find?_congr fun pattern isPattern => ?_
  rw [Bool.eq_iff_iff, List.isPrefixOf_iff_prefix, List.isPrefixOf_iff_prefix]
  refine ⟨fun isPrefix => ?_, fun isPrefix => isPrefix.trans (List.prefix_append _ _)⟩
  obtain ⟨after, same⟩ := isPrefix
  obtain ⟨others, isLeft, -⟩ | ⟨others, isLong, isRest⟩ := List.append_eq_append_iff.mp same
  · exact ⟨others, isLeft.symm⟩
  · cases others with
    | nil => exact ⟨[], by rw [isLong, List.append_nil, List.append_nil]⟩
    | cons other others =>
        have isOther := (List.cons.inj isRest).1
        refine absurd ?_ (notMember pattern isPattern)
        rw [isLong, isOther]
        exact List.mem_append_right _ List.mem_cons_self

theorem dropPatterns_append {patterns : List Bytes} {mark : UInt8}
    (nonempty : ∀ pattern ∈ patterns, pattern ≠ [])
    (notMember : ∀ pattern ∈ patterns, mark ∉ pattern) (left right : Bytes) :
    dropPatterns patterns 0 (left ++ mark :: right) =
      dropPatterns patterns 0 left ++ mark :: right := by
  induction isLength : left.length using Nat.strong_induction_on generalizing left with
  | _ length ih =>
      have isFound := find_isPrefixOf_append notMember left right
      cases left with
      | nil =>
          have notFound : (patterns.find? fun pattern => pattern.isPrefixOf ([] : Bytes)) = none := by
            refine List.find?_eq_none.mpr fun pattern isPattern isPrefix => ?_
            rw [List.isPrefixOf_iff_prefix] at isPrefix
            exact nonempty pattern isPattern (List.prefix_nil.mp isPrefix)
          rw [List.nil_append] at isFound ⊢
          rw [dropPatterns, dropPatterns, isFound, notFound]
          rfl
      | cons byte left =>
          rw [List.cons_append] at isFound ⊢
          rw [dropPatterns, isFound, dropPatterns]
          cases isTaken : patterns.find? fun pattern => pattern.isPrefixOf (byte :: left) with
          | none => rfl
          | some pattern =>
              have isPrefix := List.find?_some isTaken
              rw [List.isPrefixOf_iff_prefix] at isPrefix
              have isShort := isPrefix.length_le
              rw [List.length_cons] at isShort isLength
              have isDropped : (left ++ mark :: right).drop (pattern.length - 1) =
                  left.drop (pattern.length - 1) ++ mark :: right :=
                List.drop_append_of_le_length (by omega)
              dsimp only
              rw [Splitting.dropPatterns_skip, Splitting.dropPatterns_skip _ _ left, isDropped]
              exact ih _ (by rw [List.length_drop]; omega) _ rfl

namespace Literal

variable (literal : Literal)

theorem quoteByte_not_mem : ∀ pattern ∈ whiteSpaces, quoteByte literal.quote ∉ pattern := by
  obtain isCode | isCode := literal.isQuote
  · rw [quoteByte, isCode]
    decide
  · rw [quoteByte, isCode]
    decide

/-- A literal at the front of a text stays when the text is trimmed. -/
theorem trim_bytes (rest : Bytes) : trim (literal.bytes ++ rest) = literal.bytes ++ trimEnd rest := by
  have isStart : trimStart (literal.bytes ++ rest) = literal.bytes ++ rest := by
    have isDropped := dropPatterns_append Splitting.whiteSpaces_ne_nil literal.quoteByte_not_mem []
      (encode literal.body ++ [quoteByte literal.quote] ++ rest)
    rw [List.nil_append] at isDropped
    rw [trimStart, bytes_eq, List.cons_append, isDropped]
    rfl
  have nonempty : ∀ pattern ∈ whiteSpaces.map List.reverse, pattern ≠ [] := by
    simp [whiteSpaces]
  have notMember : ∀ pattern ∈ whiteSpaces.map List.reverse, quoteByte literal.quote ∉ pattern := by
    intro pattern isPattern isMember
    obtain ⟨space, isSpace, rfl⟩ := List.mem_map.mp isPattern
    exact literal.quoteByte_not_mem space isSpace (List.mem_reverse.mp isMember)
  have isDropped := dropPatterns_append nonempty notMember rest.reverse
    (quoteByte literal.quote :: encode literal.body).reverse
  have isReverse : (literal.bytes ++ rest).reverse = rest.reverse ++ quoteByte literal.quote ::
      (quoteByte literal.quote :: encode literal.body).reverse := by
    rw [bytes_eq]
    simp
  rw [trim, isStart, trimEnd, isReverse, isDropped, List.reverse_append, trimEnd, bytes_eq]
  simp

/-- Whether `compile_program` takes a text for one literal. -/
theorem taken_iff (rest : Bytes) :
    isSimpleStringLiteral (trim (literal.bytes ++ rest)) = true ↔
      trimEnd rest = [] ∨ (trimEnd rest).getLast? = some (quoteByte literal.quote) := by
  rw [trim_bytes, isSimpleStringLiteral_iff]

/-- The program of a literal returns the text between the quotes. -/
theorem compileProgram_bytes (fuel : ℕ) (ctx : Context) :
    compileProgram fuel ctx literal.bytes =
      some ⟨(ctx.newString (encode literal.body)).2, ⟨[⟨.const, 0, 0⟩, ⟨.return, 0, 0⟩],
        [(ctx.newString (encode literal.body)).1], []⟩⟩ := by
  have isTrimmed := literal.trim_bytes []
  rw [List.append_nil, show trimEnd [] = [] from rfl, List.append_nil] at isTrimmed
  have isInner : (literal.bytes.take (literal.bytes.length - 1)).drop 1 = encode literal.body := by
    rw [bytes_eq]
    simp
  rw [compileProgram]
  dsimp only
  rw [isTrimmed, if_pos literal.isSimpleStringLiteral_bytes, isInner]

end Literal

/-! ## Every way -/

/-- The program that returns a string. -/
def stringProgram (ctx : Context) (text : Bytes) : StmtCompiler :=
  ⟨(ctx.newString text).2, ⟨[⟨.const, 0, 0⟩, ⟨.return, 0, 0⟩], [(ctx.newString text).1], []⟩⟩

theorem heap_newString {size : ℕ} {text : Bytes} (room : text.length + 9 ≤ size) :
    ((Context.new size).newString text).2.heap 0 = some (.string text) := by
  have isAligned : alignUp 0 8 = 0 := rfl
  have notFull : ¬size < alignUp 0 8 + (8 + text.length + 1) := by
    rw [isAligned]
    omega
  have isAlloc : MemoryRegion.alloc ⟨size, 0⟩ (8 + text.length + 1) 8 =
      some (0, ⟨size, 8 + text.length + 1⟩) := by
    rw [MemoryRegion.alloc]
    dsimp only
    rw [if_neg notFull, isAligned, Nat.zero_add]
  rw [Context.newString, Context.allocString, Context.allocCell, Context.new, isAlloc]
  rfl

/-- Different strings make different programs. -/
theorem stringProgram_inj {left right : Bytes}
    (same : ∀ ctx, stringProgram ctx left = stringProgram ctx right) : left = right := by
  have isSame := congrArg (fun sc : StmtCompiler => sc.ctx.heap 0)
    (same (Context.new (left.length + right.length + 9)))
  have isLeft : (stringProgram (Context.new (left.length + right.length + 9)) left).ctx.heap 0 =
      some (.string left) := heap_newString (by omega)
  have isRight : (stringProgram (Context.new (left.length + right.length + 9)) right).ctx.heap 0 =
      some (.string right) := heap_newString (by omega)
  rw [isLeft, isRight] at isSame
  exact Cell.string.inj (Option.some.inj isSame)

/-- A literal with some text behind it denotes its value on every path, and the text is not
taken for a part of it. -/
structure Literal.Denotes (literal : Literal) (rest : Bytes) : Prop where
  /-- In the compiler of expressions. -/
  compiled : parseStringLiteral (literal.bytes ++ rest) = some (literal.value, rest)
  /-- In `eval_value`. -/
  evaluated : evalLiteral literal.bytes = some literal.value
  /-- In the parser of expressions that are evaluated. -/
  walked : parseString (literal.bytes ++ rest) = some (literal.value, rest)
  /-- As a program of its own. -/
  whole : ∀ fuel ctx,
    compileProgram fuel ctx literal.bytes = some (stringProgram ctx literal.value)
  /-- With a text behind it. -/
  notWhole : isSimpleStringLiteral (trim (literal.bytes ++ rest)) = true → trimEnd rest = []

/-- A part that every path reads as the language does. -/
def Item.IsAscii : Item → Prop
  | .char ch => ch.toNat < 128
  | _ => False

theorem Item.isAscii_iff (item : Item) :
    item.IsAscii ↔ item.ReadAsBytes ∧ item.ReadAsUnits ∧ item.IsPlain := by
  cases item with
  | char ch => exact ⟨fun ascii => ⟨ascii, trivial, trivial⟩, fun all => all.1⟩
  | _ => exact iff_of_false id fun all => all.2.2

namespace Literal

variable (literal : Literal)

theorem compileProgram_iff :
    (∀ fuel ctx, compileProgram fuel ctx literal.bytes = some (stringProgram ctx literal.value)) ↔
      ∀ item ∈ literal.items, item.IsPlain := by
  have isProgram (fuel : ℕ) (ctx : Context) : compileProgram fuel ctx literal.bytes =
      some (stringProgram ctx (encode literal.body)) := literal.compileProgram_bytes fuel ctx
  rw [← literal.encode_body_iff]
  refine ⟨fun same => stringProgram_inj fun ctx => ?_, fun same fuel ctx => ?_⟩
  · have isSame := same 0 ctx
    rw [isProgram] at isSame
    exact Option.some.inj isSame
  · rw [isProgram, same]

/-- ASCII parts have units without pairs. -/
theorem unpaired_of_ascii {items : List Item} (ascii : ∀ item ∈ items, item.IsAscii) :
    CodeUnits.Unpaired ((items.flatMap Item.units).map UInt16.toNat) := by
  refine CodeUnits.unpaired_of_not_high fun unit isUnit isHigh => ?_
  obtain ⟨original, isOriginal, rfl⟩ := List.mem_map.mp isUnit
  obtain ⟨item, isItem, isMember⟩ := List.mem_flatMap.mp isOriginal
  cases item with
  | char ch =>
      have isAscii : ch.toNat < 128 := ascii _ isItem
      rw [Item.units, encodeUtf16_of_lt (by omega), List.mem_singleton] at isMember
      rw [isMember, toNat_unit (by omega)] at isHigh
      have isLarge := isHigh.1
      omega
  | _ => exact ascii _ isItem

end Literal

/-- Every path gives a literal its value exactly when it is made of ASCII characters
without escapes, and the text behind it does not end in its quote. -/
theorem literals_iff (literal : Literal) (rest : Bytes) :
    (literal.Denotes rest ↔
      (∀ item ∈ literal.items, item.IsAscii) ∧
        (trimEnd rest).getLast? ≠ some (quoteByte literal.quote)) ∧
    (parseStringLiteral (literal.bytes ++ rest) = some (literal.value, rest) ↔
      ∀ item ∈ literal.items, item.ReadAsBytes) ∧
    (evalLiteral literal.bytes = some literal.value ↔
      CodeUnits.Unpaired (literal.units.map UInt16.toNat) ∧
        ∀ item ∈ literal.items, item.ReadAsUnits) ∧
    (parseString (literal.bytes ++ rest) = some (literal.value, rest) ↔
      CodeUnits.Unpaired (literal.units.map UInt16.toNat) ∧
        ∀ item ∈ literal.items, item.ReadAsUnits) ∧
    ((∀ fuel ctx, compileProgram fuel ctx literal.bytes =
        some (stringProgram ctx literal.value)) ↔ ∀ item ∈ literal.items, item.IsPlain) := by
  refine ⟨?_, literal.parseStringLiteral_iff rest, literal.evalLiteral_iff,
    literal.parseString_iff rest, literal.compileProgram_iff⟩
  constructor
  · intro denotes
    have asBytes := (literal.parseStringLiteral_iff rest).mp denotes.compiled
    have asUnits := (literal.evalLiteral_iff.mp denotes.evaluated).2
    have plain := literal.compileProgram_iff.mp denotes.whole
    refine ⟨fun item isItem => item.isAscii_iff.mpr
      ⟨asBytes item isItem, asUnits item isItem, plain item isItem⟩, fun isQuote => ?_⟩
    have isBlank := denotes.notWhole ((literal.taken_iff rest).mpr (.inr isQuote))
    rw [isBlank] at isQuote
    cases isQuote
  · rintro ⟨ascii, notQuote⟩
    have isUnits : CodeUnits.Unpaired (literal.units.map UInt16.toNat) ∧
        ∀ item ∈ literal.items, item.ReadAsUnits :=
      ⟨Literal.unpaired_of_ascii ascii, fun item isItem => (item.isAscii_iff.mp (ascii item isItem)).2.1⟩
    exact
      { compiled := (literal.parseStringLiteral_iff rest).mpr fun item isItem =>
          (item.isAscii_iff.mp (ascii item isItem)).1
        evaluated := literal.evalLiteral_iff.mpr isUnits
        walked := (literal.parseString_iff rest).mpr isUnits
        whole := literal.compileProgram_iff.mpr fun item isItem =>
          (item.isAscii_iff.mp (ascii item isItem)).2.2
        notWhole := fun isTaken =>
          ((literal.taken_iff rest).mp isTaken).resolve_right notQuote }

/-- The literal `"é"`. -/
def accented : Literal where
  quote := Char.ofNat 34
  items := [.char (Char.ofNat 0xE9)]
  isQuote := .inl rfl
  valid := by
    rw [List.forall_mem_singleton]
    refine ⟨by decide, by decide, ?_⟩
    unfold IsLineTerminator
    decide
  noOctal := .singleton _

/-- `"é"` is read as four bytes by the compiler, and two literals with a plus between them
are taken for one. -/
theorem not_always_literals :
    (¬∀ (literal : Literal) (rest : Bytes), literal.Denotes rest) ∧
      isSimpleStringLiteral (trim (asBytes "'a' + 'b'")) = true := by
  refine ⟨fun always => ?_, rfl⟩
  have isRead := (accented.parseStringLiteral_iff []).mp (always accented []).compiled
  have ascii : (Char.ofNat 0xE9).toNat < 128 := isRead _ List.mem_cons_self
  exact absurd ascii (by decide)

end Literals
end Script
end MuonJs
