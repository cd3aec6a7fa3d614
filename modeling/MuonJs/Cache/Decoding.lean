import MuonJs.Cache.Frames

/-!
# What is written is read back

The reader gets back what `encode` wrote and leaves what follows unread, with
one exception: it accumulates the digits of a number before it applies the sign,
so the smallest `i64` overflows and is read as zero.
-/

namespace MuonJs
namespace Cache

/-! ## Texts -/

theorem toNat_byte {value : ℕ} (isByte : value < 256) :
    (UInt8.ofNat value).toNat = value :=
  UInt8.toNat_ofNat_of_lt' isByte

theorem lossyChars_lead
    {byte low high : UInt8} {missing : ℕ} (rest : Bytes)
    (notAscii : 128 ≤ byte.toNat)
    (isLead : leadByte byte = some (missing, low, high)) :
    lossyChars 0 0 0 0 (byte :: rest) =
      lossyChars (leadBits byte missing) missing low high rest := by
  have large : ¬byte < 0x80 := by
    rw [UInt8.lt_iff_toNat_lt]
    exact not_lt.mpr notAscii
  rw [lossyChars, if_neg (fun begun => begun.1 rfl)]
  dsimp only
  rw [if_neg large, isLead]
  rfl

theorem lossyChars_last
    {byte low high : UInt8} (code : ℕ) (rest : Bytes)
    (atLeast : low ≤ byte) (atMost : byte ≤ high) :
    lossyChars code 1 low high (byte :: rest) =
      Char.ofNat (code * 64 + byte.toNat % 64) :: lossyChars 0 0 0 0 rest := by
  rw [lossyChars, if_pos ⟨Nat.one_ne_zero, atLeast, atMost⟩]
  rfl

theorem lossyChars_middle
    {byte low high : UInt8} {missing : ℕ} (code : ℕ) (rest : Bytes)
    (more : 2 ≤ missing) (atLeast : low ≤ byte) (atMost : byte ≤ high) :
    lossyChars code missing low high (byte :: rest) =
      lossyChars (code * 64 + byte.toNat % 64) (missing - 1) 0x80 0xBF rest := by
  have notZero : missing ≠ 0 := by omega
  have notOne : missing ≠ 1 := by omega
  rw [lossyChars, if_pos ⟨notZero, atLeast, atMost⟩]
  dsimp only
  rw [if_neg notOne]

/-- A continuation byte. -/
theorem continuation (bits : ℕ) :
    0x80 ≤ UInt8.ofNat (bits % 64 + 128) ∧
      UInt8.ofNat (bits % 64 + 128) ≤ 0xBF ∧
      (UInt8.ofNat (bits % 64 + 128)).toNat % 64 = bits % 64 := by
  have isByte : (UInt8.ofNat (bits % 64 + 128)).toNat = bits % 64 + 128 :=
    toNat_byte (by omega)
  rw [UInt8.le_iff_toNat_le, UInt8.le_iff_toNat_le, isByte]
  exact ⟨Nat.le_add_left _ _, by change _ ≤ 191; omega, by omega⟩

theorem leadByte_two {code : ℕ} (low : 0x80 ≤ code) (high : code ≤ 0x7ff) :
    (UInt8.ofNat (code / 64 % 32 + 192)).toNat = code / 64 + 192 ∧
      leadByte (UInt8.ofNat (code / 64 % 32 + 192)) = some (1, 0x80, 0xBF) := by
  have isByte : (UInt8.ofNat (code / 64 % 32 + 192)).toNat = code / 64 + 192 := by
    rw [toNat_byte (by omega)]
    omega
  refine ⟨isByte, ?_⟩
  rw [leadByte, if_pos]
  rw [UInt8.le_iff_toNat_le, UInt8.le_iff_toNat_le, isByte]
  exact ⟨by change 194 ≤ _; omega, by change _ ≤ 223; omega⟩

theorem leadByte_three {code : ℕ} (low : 0x800 ≤ code) (high : code ≤ 0xffff)
    (notSurrogate : code < 0xD800 ∨ 0xDFFF < code) :
    (UInt8.ofNat (code / 4096 % 16 + 224)).toNat = code / 4096 + 224 ∧
      ∃ first last, leadByte (UInt8.ofNat (code / 4096 % 16 + 224)) =
          some (2, first, last) ∧
        first ≤ UInt8.ofNat (code / 64 % 64 + 128) ∧
        UInt8.ofNat (code / 64 % 64 + 128) ≤ last := by
  have isByte : (UInt8.ofNat (code / 4096 % 16 + 224)).toNat =
      code / 4096 + 224 := by
    rw [toNat_byte (by omega)]
    omega
  have isNext : (UInt8.ofNat (code / 64 % 64 + 128)).toNat =
      code / 64 % 64 + 128 :=
    toNat_byte (by omega)
  refine ⟨isByte, ?_⟩
  simp only [leadByte, UInt8.le_iff_toNat_le, ← UInt8.toNat_inj, isByte, isNext,
    UInt8.reduceToNat]
  split_ifs
  all_goals
    first
    | exact ⟨_, _, rfl, by simp only [UInt8.reduceToNat]; omega,
        by simp only [UInt8.reduceToNat]; omega⟩
    | omega

theorem leadByte_four {code : ℕ} (low : 0x10000 ≤ code) (high : code < 0x110000) :
    (UInt8.ofNat (code / 262144 % 8 + 240)).toNat = code / 262144 + 240 ∧
      ∃ first last, leadByte (UInt8.ofNat (code / 262144 % 8 + 240)) =
          some (3, first, last) ∧
        first ≤ UInt8.ofNat (code / 4096 % 64 + 128) ∧
        UInt8.ofNat (code / 4096 % 64 + 128) ≤ last := by
  have isByte : (UInt8.ofNat (code / 262144 % 8 + 240)).toNat =
      code / 262144 + 240 := by
    rw [toNat_byte (by omega)]
    omega
  have isNext : (UInt8.ofNat (code / 4096 % 64 + 128)).toNat =
      code / 4096 % 64 + 128 :=
    toNat_byte (by omega)
  refine ⟨isByte, ?_⟩
  simp only [leadByte, UInt8.le_iff_toNat_le, ← UInt8.toNat_inj, isByte, isNext,
    UInt8.reduceToNat]
  split_ifs
  all_goals
    first
    | exact ⟨_, _, rfl, by simp only [UInt8.reduceToNat]; omega,
        by simp only [UInt8.reduceToNat]; omega⟩
    | omega

/-- A character is read back from its bytes. -/
theorem lossyChars_utf8EncodeChar (char : Char) (rest : Bytes) :
    lossyChars 0 0 0 0 (String.utf8EncodeChar char ++ rest) =
      char :: lossyChars 0 0 0 0 rest := by
  have isChar : Char.ofNat char.val.toNat = char := Char.ofNat_toNat char
  have valid : char.val.toNat < 0xD800 ∨
      0xDFFF < char.val.toNat ∧ char.val.toNat < 0x110000 := char.valid
  unfold String.utf8EncodeChar
  generalize char.val.toNat = code at isChar valid
  dsimp only
  split
  · rename_i ascii
    have isByte : (UInt8.ofNat code).toNat = code :=
      toNat_byte (by omega)
    have small : UInt8.ofNat code < 0x80 := by
      rw [UInt8.lt_iff_toNat_lt, isByte]
      change code < 128
      omega
    rw [List.cons_append, lossyChars, if_neg (fun begun => begun.1 rfl)]
    dsimp only
    rw [if_pos small, isByte, isChar]
    rfl
  split
  · obtain ⟨isByte, isLead⟩ := @leadByte_two code (by omega) (by omega)
    obtain ⟨low, high, bits⟩ := continuation code
    rw [List.cons_append, lossyChars_lead _ (by omega) isLead, List.cons_append,
      lossyChars_last _ _ low high, bits, leadBits, isByte,
      show (code / 64 + 192) % 2 ^ (6 - 1) * 64 + code % 64 = code by omega,
      isChar]
    rfl
  split
  · obtain ⟨isByte, first, last, isLead, atLeast, atMost⟩ :=
      @leadByte_three code (by omega) (by omega) (by omega)
    obtain ⟨-, -, bits⟩ := continuation (code / 64)
    obtain ⟨low, high, bits'⟩ := continuation code
    rw [List.cons_append, lossyChars_lead _ (by omega) isLead, List.cons_append,
      lossyChars_middle _ _ (le_refl 2) atLeast atMost, List.cons_append,
      lossyChars_last _ _ low high, bits, bits', leadBits, isByte,
      show ((code / 4096 + 224) % 2 ^ (6 - 2) * 64 + code / 64 % 64) * 64 +
        code % 64 = code by omega, isChar]
    rfl
  · obtain ⟨isByte, first, last, isLead, atLeast, atMost⟩ :=
      @leadByte_four code (by omega) (by omega)
    obtain ⟨-, -, bits⟩ := continuation (code / 4096)
    obtain ⟨low, high, bits'⟩ := continuation (code / 64)
    obtain ⟨low', high', bits''⟩ := continuation code
    rw [List.cons_append, lossyChars_lead _ (by omega) isLead, List.cons_append,
      lossyChars_middle _ _ (by omega) atLeast atMost, List.cons_append,
      lossyChars_middle _ _ (le_refl 2) low high, List.cons_append,
      lossyChars_last _ _ low' high', bits, bits', bits'', leadBits, isByte,
      show (((code / 262144 + 240) % 2 ^ (6 - 3) * 64 + code / 4096 % 64) * 64 +
        code / 64 % 64) * 64 + code % 64 = code by omega, isChar]
    rfl

/-- A text is read back from its bytes. -/
theorem fromUtf8Lossy_asBytes (text : String) :
    fromUtf8Lossy (asBytes text) = text := by
  have chars : ∀ chars : List Char,
      lossyChars 0 0 0 0 (chars.flatMap String.utf8EncodeChar) = chars := by
    intro chars
    induction chars with
    | nil => rfl
    | cons char chars ih =>
        rw [List.flatMap_cons, lossyChars_utf8EncodeChar, ih]
  rw [fromUtf8Lossy, asBytes_eq_flatMap, chars, String.ofList_toList]

/-! ## Numbers -/

theorem pushDigits_eq (n : ℕ) (written : Bytes) :
    pushDigits n written = (if n = 0 then [] else natBytes n) ++ written := by
  induction n using Nat.strongRecOn generalizing written with
  | ind n ih =>
      rw [pushDigits]
      by_cases isZero : n = 0
      · rw [if_pos isZero, if_pos isZero, List.nil_append]
      · have digit : natBytes (n % 10) = [UInt8.ofNat (48 + n % 10)] := by
          have small : n % 10 < 10 := Nat.mod_lt _ (by decide)
          generalize n % 10 = digit at small
          interval_cases digit <;> rfl
        rw [if_neg isZero, if_neg isZero, ih _ (Nat.div_lt_self (by omega) (by omega))]
        by_cases last : n / 10 = 0
        · rw [if_pos last, List.nil_append, ← List.singleton_append, ← digit,
            Nat.mod_eq_of_lt (by omega)]
        · have digits := Nat.toDigits_append_toDigits (b := 10) (by decide)
            (Nat.pos_of_ne_zero last) (Nat.mod_lt n (by decide))
          rw [Nat.div_add_mod] at digits
          rw [if_neg last, ← List.singleton_append, ← List.append_assoc, ← digit,
            natBytes, natBytes, ← List.map_append, digits]
          rfl

/-- `push_usize` writes the decimal text. -/
theorem pushUsize_eq (n : ℕ) : pushUsize n = natBytes n := by
  unfold pushUsize
  split
  · rename_i isZero
    rw [isZero]
    rfl
  · rename_i positive
    rw [pushDigits_eq, if_neg positive, List.append_nil]

/-- `push_i64` writes the decimal text. -/
theorem pushI64_eq (n : Int64) : pushI64 n = writeI64Bytes n := by
  unfold pushI64 writeI64Bytes
  by_cases isZero : n = 0
  · rw [if_pos isZero, isZero]
    rfl
  · have positive : n.toInt.natAbs ≠ 0 := by
      intro zero
      exact isZero (Int64.toInt_inj.mp (Int.natAbs_eq_zero.mp zero))
    have isNegative : n < 0 ↔ n.toInt < 0 := Int64.lt_iff_toInt_lt
    rw [if_neg isZero, pushDigits_eq, if_neg positive, List.append_nil]
    by_cases negative : n < 0
    · rw [if_pos negative, if_pos (isNegative.mp negative)]
    · rw [if_neg negative, if_neg fun less => negative (isNegative.mpr less)]

theorem le_digitsFrom {start value : ℕ} {digits : Bytes}
    (isValue : digitsFrom start digits = some value) : start ≤ value := by
  induction digits generalizing start with
  | nil => exact (Option.some.inj isValue).le
  | cons digit digits ih =>
      rw [digitsFrom] at isValue
      split at isValue
      · exact le_trans (by omega) (ih isValue)
      · cases isValue

namespace Resp

/-- The digit loop reads the numbers up to `i64::MAX`. -/
theorem parseI64Loop_eq
    {start : Int64} {value : ℕ} {digits : Bytes} (positive : 0 ≤ start.toInt)
    (isValue : digitsFrom start.toInt.toNat digits = some value) :
    parseI64Loop start digits = toI64 value := by
  induction digits generalizing start with
  | nil =>
      obtain rfl := Option.some.inj isValue
      rw [parseI64Loop, Int.toNat_of_nonneg positive, toI64,
        if_pos ⟨Int64.le_toInt start, Int64.toInt_lt start⟩, Int64.ofInt_toInt]
  | cons digit digits ih =>
      rw [digitsFrom] at isValue
      rw [parseI64Loop]
      split at isValue
      · rename_i isDigit
        rw [if_pos isDigit]
        have least := le_digitsFrom isValue
        by_cases fits : start.toInt * 10 + (digit.toNat - 48 : ℕ) < 2 ^ 63
        · have tens : (Int64.ofInt (start.toInt * 10)).toInt = start.toInt * 10 :=
            Int64.toInt_ofInt_of_le (by omega) (by omega)
          have next : (Int64.ofInt (start.toInt * 10 +
              (digit.toNat - 48 : ℕ))).toInt =
                start.toInt * 10 + (digit.toNat - 48 : ℕ) :=
            Int64.toInt_ofInt_of_le (by omega) (by omega)
          rw [toI64, if_pos (by omega), Option.bind_some, tens, toI64,
            if_pos (by omega), Option.bind_some]
          apply ih
          · rw [next]
            omega
          · rw [next, ← isValue]
            congr 1
            omega
        · have overflows : toI64 value = none := by
            rw [toI64, if_neg (by omega)]
          rw [overflows]
          by_cases tensFit : start.toInt * 10 < 2 ^ 63
          · have tens : (Int64.ofInt (start.toInt * 10)).toInt =
                start.toInt * 10 :=
              Int64.toInt_ofInt_of_le (by omega) (by omega)
            rw [toI64, if_pos (by omega), Option.bind_some, tens, toI64,
              if_neg (by omega), Option.bind_none]
          · rw [toI64, if_neg (by omega), Option.bind_none]
      · cases isValue

theorem parseI64Bytes_natBytes (value : ℕ) :
    parseI64Bytes (natBytes value) = toI64 value := by
  obtain ⟨digit, rest, isText, isDigit, isValue⟩ := natBytes_spec value
  have notMinus : digit ≠ 45 := by
    rintro rfl
    cases isDigit
  rw [isText]
  unfold parseI64Bytes
  split
  · rename_i same
    cases same
  · rename_i same
    exact absurd (List.cons.inj same).1 notMinus
  · rename_i same
    exact absurd (List.cons.inj same).1 notMinus
  · exact parseI64Loop_eq (le_refl _) isValue

/-- A number is read back, except the smallest one. -/
theorem parseI64Bytes_writeI64Bytes (value : Int64) :
    parseI64Bytes (writeI64Bytes value) =
      if value = Int64.minValue then none else some value := by
  have atLeast := Int64.le_toInt value
  have lessThan := Int64.toInt_lt value
  unfold writeI64Bytes
  split
  · rename_i negative
    obtain ⟨digit, rest, isText, isDigit, isValue⟩ :=
      natBytes_spec value.toInt.natAbs
    have parsed : parseI64Bytes (45 :: natBytes value.toInt.natAbs) =
        (toI64 value.toInt.natAbs).map fun value => -value := by
      rw [isText, ← @parseI64Loop_eq 0 _ _ (le_refl _) isValue]
      rfl
    rw [parsed]
    by_cases isMin : value = Int64.minValue
    · have isLeast : value.toInt = -2 ^ 63 := by
        rw [isMin]
        decide
      rw [if_pos isMin, toI64, if_neg (by omega), Option.map_none]
    · have notMin : value.toInt ≠ -2 ^ 63 :=
        fun same => isMin (Int64.toInt_inj.mp same)
      rw [if_neg isMin, toI64, if_pos (by omega), Option.map_some, ← Int64.ofInt_neg,
        show -(value.toInt.natAbs : ℤ) = value.toInt by omega, Int64.ofInt_toInt]
  · rename_i positive
    have notMin : value ≠ Int64.minValue := by
      rintro rfl
      exact positive (by decide)
    rw [parseI64Bytes_natBytes, if_neg notMin, toI64, if_pos (by omega),
      show (value.toInt.natAbs : ℤ) = value.toInt by omega, Int64.ofInt_toInt]

end Resp

/-! ## Lines and byte strings -/

theorem readUntil_append
    (closed : Bool) {text : Bytes} (noLineFeed : 10 ∉ text) (rest : Bytes) :
    readUntil closed (text ++ 10 :: rest) = .done (text ++ [10]) rest := by
  induction text with
  | nil => rw [List.nil_append, readUntil, if_pos rfl, List.nil_append]
  | cons byte text ih =>
      rw [List.mem_cons, not_or] at noLineFeed
      rw [List.cons_append, readUntil, if_neg (Ne.symm noLineFeed.1),
        ih noLineFeed.2, Reading.map_done, List.cons_append]

theorem stripLineEnd_append (text : Bytes) : stripLineEnd (text ++ crlf) = text := by
  have isSuffix : crlf.isSuffixOf (text ++ crlf) = true :=
    List.isSuffixOf_iff_suffix.mpr (List.suffix_append text crlf)
  rw [stripLineEnd, if_pos isSuffix, List.length_append,
    show crlf.length = 2 from rfl, Nat.add_sub_cancel, List.take_left]

/-- A line without a line feed is read back. -/
theorem readLineBytes_append
    (closed : Bool) {text : Bytes} (noLineFeed : 10 ∉ text) (rest : Bytes) :
    readLineBytes closed (text ++ crlf ++ rest) = .done text rest := by
  have noLineFeed' : 10 ∉ text ++ [13] := by
    rw [List.mem_append, not_or]
    exact ⟨noLineFeed, by decide⟩
  have split : text ++ crlf ++ rest = (text ++ [13]) ++ 10 :: rest := by
    rw [List.append_assoc, List.append_assoc]
    rfl
  rw [readLineBytes, split, readUntil_append closed noLineFeed', Reading.map_done,
    List.append_assoc, show [13] ++ [10] = crlf from rfl, stripLineEnd_append]

theorem readExact_append (closed : Bool) (bytes rest : Bytes) :
    readExact closed bytes.length (bytes ++ rest) = .done bytes rest := by
  rw [readExact, if_pos (by rw [List.length_append]; omega), List.take_left,
    List.drop_left]

theorem not_mem_natBytes (value : ℕ) : 10 ∉ natBytes value := by
  intro isLineFeed
  obtain ⟨digit, isDigit, same⟩ := List.mem_map.mp isLineFeed
  obtain ⟨-, isAscii⟩ := isAsciiDigit_of_isDigit (isDigit_of_mem_decimal isDigit)
  rw [same] at isAscii
  cases isAscii

theorem not_mem_writeI64Bytes (value : Int64) : 10 ∉ writeI64Bytes value := by
  unfold writeI64Bytes
  split
  · rw [List.mem_cons, not_or]
    exact ⟨by decide, not_mem_natBytes _⟩
  · exact not_mem_natBytes _

/-- A length is read back. -/
theorem parseI64Bytes_pushUsize {len : ℕ} (inRange : len < 2 ^ 63) :
    ∃ len', Resp.parseI64Bytes (pushUsize len) = some len' ∧ ¬len' < 0 ∧
      len'.toInt.toNat = len := by
  have isLength : (Int64.ofInt len).toInt = len :=
    Int64.toInt_ofInt_of_le (by omega) (by omega)
  refine ⟨Int64.ofInt len, ?_, ?_, ?_⟩
  · rw [pushUsize_eq, Resp.parseI64Bytes_natBytes, toI64, if_pos (by omega)]
  · rw [Int64.lt_iff_toInt_lt, isLength]
    exact not_lt.mpr (Int.natCast_nonneg len)
  · rw [isLength, Int.toNat_natCast]

theorem readLineBytes_pushUsize (closed : Bool) (len : ℕ) (rest : Bytes) :
    readLineBytes closed (pushUsize len ++ crlf ++ rest) =
      .done (pushUsize len) rest := by
  rw [pushUsize_eq]
  exact readLineBytes_append closed (not_mem_natBytes len) rest

/-- A byte string is read back. -/
theorem readSingleElement_blob
    (closed allowInline : Bool) {bytes : Bytes} (inRange : bytes.length < 2 ^ 63)
    (rest : Bytes) :
    readSingleElement closed 36 allowInline
      (pushUsize bytes.length ++ crlf ++ (bytes ++ crlf ++ rest)) =
        .done (.blob bytes) rest := by
  obtain ⟨len, isRead, notNegative, isLength⟩ := parseI64Bytes_pushUsize inRange
  rw [readSingleElement, if_neg (by decide), if_neg (by decide), if_neg (by decide),
    if_neg (by decide), if_pos rfl, readLineBytes_pushUsize, Reading.bind_done]
  dsimp only
  rw [isRead, Option.getD_some, if_neg notNegative, isLength, List.append_assoc,
    readExact_append, Reading.bind_done]
  exact congrArg (Reading.map fun _ => RespValue.blob bytes)
    (readExact_append closed crlf rest)

/-! ## Replies -/

namespace RespValue

mutual

/-- What fits into memory, and has no line feed in its texts. -/
def Framed : RespValue → Prop
  | .simple text => 10 ∉ asBytes text
  | .error message => 10 ∉ asBytes message
  | .integer _ => True
  | .blob bytes => bytes.length < 2 ^ 63
  | .null => True
  | .array items => items.length * sizeOfRespValue < 2 ^ 63 ∧ FramedItems items

/-- The items of an array. -/
def FramedItems : List RespValue → Prop
  | [] => True
  | item :: items => Framed item ∧ FramedItems items

end

mutual

/-- What a reply is read back as: the smallest integer becomes zero. -/
def readBack : RespValue → RespValue
  | .integer value => .integer (if value = Int64.minValue then 0 else value)
  | .array items => .array (readBackItems items)
  | .simple text => .simple text
  | .error message => .error message
  | .blob bytes => .blob bytes
  | .null => .null

/-- The items of an array. -/
def readBackItems : List RespValue → List RespValue
  | [] => []
  | item :: items => readBack item :: readBackItems items

end

mutual

/-- The smallest integer is not inside. -/
def AvoidsMin : RespValue → Prop
  | .integer value => value ≠ Int64.minValue
  | .array items => AvoidsMinItems items
  | .simple _ => True
  | .error _ => True
  | .blob _ => True
  | .null => True

/-- The items of an array. -/
def AvoidsMinItems : List RespValue → Prop
  | [] => True
  | item :: items => AvoidsMin item ∧ AvoidsMinItems items

end

end RespValue

/-- Everything but an array is read back by `read_single_element`. -/
theorem readSingleElement_encode
    (closed allowInline : Bool) {value : RespValue} (framed : value.Framed)
    (notArray : ∀ items, value ≠ .array items) (rest : Bytes) :
    ∃ tag payload, value.encode ++ rest = tag :: payload ∧ tag ≠ 42 ∧
      readSingleElement closed tag allowInline payload =
        .done value.readBack rest := by
  cases value with
  | simple text =>
      refine ⟨43, asBytes text ++ crlf ++ rest, rfl, by decide, ?_⟩
      rw [RespValue.Framed] at framed
      rw [readSingleElement, if_pos rfl, readLineBytes_append closed framed,
        Reading.map_done, fromUtf8Lossy_asBytes, RespValue.readBack]
  | error message =>
      refine ⟨45, asBytes message ++ crlf ++ rest, rfl, by decide, ?_⟩
      rw [RespValue.Framed] at framed
      rw [readSingleElement, if_neg (by decide), if_pos rfl,
        readLineBytes_append closed framed, Reading.map_done, fromUtf8Lossy_asBytes,
        RespValue.readBack]
  | integer value =>
      refine ⟨58, writeI64Bytes value ++ crlf ++ rest, ?_, by decide, ?_⟩
      · rw [RespValue.encode, pushI64_eq]
        rfl
      · rw [readSingleElement, if_neg (by decide), if_neg (by decide), if_pos rfl,
          readLineBytes_append closed (not_mem_writeI64Bytes value), Reading.map_done,
          Resp.parseI64Bytes_writeI64Bytes, RespValue.readBack]
        split
        · rfl
        · rfl
  | blob bytes =>
      refine ⟨36, pushUsize bytes.length ++ crlf ++ (bytes ++ crlf ++ rest), ?_,
        by decide, ?_⟩
      · rw [RespValue.encode, encodeBlob, line, List.cons_append, List.cons_append,
          List.append_assoc]
      · rw [RespValue.Framed] at framed
        rw [readSingleElement_blob closed allowInline framed, RespValue.readBack]
  | null =>
      refine ⟨95, [] ++ crlf ++ rest, rfl, by decide, ?_⟩
      rw [readSingleElement, if_neg (by decide), if_neg (by decide),
        if_neg (by decide), if_pos rfl,
        readLineBytes_append closed (List.not_mem_nil), Reading.map_done,
        RespValue.readBack]
  | array items => exact absurd rfl (notArray items)

/-! ## Arrays -/

theorem beginArray_fits {len : ℕ} (fits : len * sizeOfRespValue < 2 ^ 63)
    (follow : ArrayFrame → Reading α) :
    beginArray len follow = follow ⟨len, []⟩ := by
  rw [beginArray, ArrayFrame.new, if_pos fits]

theorem readArrayLen_append
    (closed : Bool) {len : ℕ} (fits : len * sizeOfRespValue < 2 ^ 63)
    (rest : Bytes) :
    ∃ len', readArrayLen closed (pushUsize len ++ crlf ++ rest) = .done len' rest ∧
      ¬len' < 0 ∧ len'.toInt.toNat = len := by
  have inRange : len < 2 ^ 63 :=
    lt_of_le_of_lt (Nat.le_mul_of_pos_right len (by decide)) fits
  obtain ⟨len', isRead, notNegative, isLength⟩ := parseI64Bytes_pushUsize inRange
  refine ⟨len', ?_, notNegative, isLength⟩
  rw [readArrayLen, readLineBytes_pushUsize, Reading.map_done, isRead,
    Option.getD_some]

/-- A round that goes on. -/
theorem arrayLoop_of_goOn
    {closed : Bool} {current current' : ArrayFrame}
    {stack stack' : List ArrayFrame} {input unread : Bytes}
    (missing : current.remaining ≠ 0)
    (goesOn : readItem closed current stack input =
      .done (.goOn current' stack') unread) :
    arrayLoop closed current stack input = arrayLoop closed current' stack' unread := by
  rw [arrayLoop_of_missing missing, goesOn, Reading.bind_done]

/-- The loop reads an item back that is no array. -/
theorem arrayLoop_single
    (closed : Bool) {value : RespValue} (framed : value.Framed)
    (notArray : ∀ items, value ≠ .array items)
    (current : ArrayFrame) (missing : current.remaining ≠ 0)
    (stack : List ArrayFrame) (rest : Bytes) :
    arrayLoop closed current stack (value.encode ++ rest) =
      arrayLoop closed (current.push value.readBack) stack rest := by
  obtain ⟨tag, payload, isEncoded, notStar, isRead⟩ :=
    readSingleElement_encode closed false framed notArray rest
  apply arrayLoop_of_goOn missing
  rw [isEncoded, readItem, readPrefix, Reading.bind_done]
  dsimp only
  rw [if_neg notStar, isRead, Reading.map_done]

mutual

/-- The loop reads one item back, whatever arrays are unfinished. -/
theorem arrayLoop_encode
    (closed : Bool) (value : RespValue) (framed : value.Framed)
    (current : ArrayFrame) (missing : current.remaining ≠ 0)
    (stack : List ArrayFrame) (rest : Bytes) :
    arrayLoop closed current stack (value.encode ++ rest) =
      arrayLoop closed (current.push value.readBack) stack rest := by
  cases value with
  | array items =>
      rw [RespValue.Framed] at framed
      obtain ⟨len, isRead, notNegative, isLength⟩ := readArrayLen_append closed
        framed.1 (RespValue.encodeItems items ++ rest)
      have begins : readItem closed current stack
          ((RespValue.array items).encode ++ rest) =
            .done (.goOn ⟨items.length, []⟩ (current :: stack))
              (RespValue.encodeItems items ++ rest) := by
        rw [RespValue.encode, line, List.append_assoc, List.cons_append, readItem,
          readPrefix, Reading.bind_done]
        dsimp only
        rw [if_pos rfl, isRead, Reading.bind_done, if_neg notNegative, isLength,
          beginArray_fits framed.1]
      rw [arrayLoop_of_goOn missing begins]
      have readsItems := arrayLoop_encodeItems closed items framed.2
        ⟨items.length, []⟩ (le_refl _) (current :: stack) rest
      rw [Nat.sub_self, List.nil_append] at readsItems
      rw [readsItems, arrayLoop_of_complete rfl, RespValue.readBack]
  | simple | error | integer | blob | null =>
      exact arrayLoop_single closed framed (by rintro _ ⟨⟩) current missing stack rest

/-- The loop reads the items of an array back. -/
theorem arrayLoop_encodeItems
    (closed : Bool) (items : List RespValue) (framed : RespValue.FramedItems items)
    (current : ArrayFrame) (missing : items.length ≤ current.remaining)
    (stack : List ArrayFrame) (rest : Bytes) :
    arrayLoop closed current stack (RespValue.encodeItems items ++ rest) =
      arrayLoop closed ⟨current.remaining - items.length,
        current.items ++ RespValue.readBackItems items⟩ stack rest := by
  cases items with
  | nil =>
      rw [RespValue.encodeItems, RespValue.readBackItems, List.nil_append,
        List.append_nil]
      rfl
  | cons item items =>
      rw [RespValue.FramedItems] at framed
      rw [List.length_cons] at missing ⊢
      rw [RespValue.encodeItems, List.append_assoc,
        arrayLoop_encode closed item framed.1 current (by omega),
        arrayLoop_encodeItems closed items framed.2 (current.push item.readBack)
          (Nat.le_sub_one_of_lt missing), RespValue.readBackItems,
        ArrayFrame.push, List.append_assoc, Nat.sub_sub, Nat.add_comm 1]
      rfl

end

/-! ## Frames -/

/-- One frame is read, and what follows is left unread. -/
theorem readValue_encode
    (closed : Bool) {value : RespValue} (framed : value.Framed) (rest : Bytes) :
    readValue closed (value.encode ++ rest) = .done (some value.readBack) rest := by
  by_cases isArray : ∃ items, value = .array items
  · obtain ⟨items, rfl⟩ := isArray
    rw [RespValue.Framed] at framed
    obtain ⟨len, isRead, notNegative, isLength⟩ := readArrayLen_append closed
      framed.1 (RespValue.encodeItems items ++ rest)
    have readsItems := arrayLoop_encodeItems closed items framed.2
      ⟨items.length, []⟩ (le_refl _) [] rest
    rw [Nat.sub_self, List.nil_append] at readsItems
    rw [RespValue.encode, line, List.append_assoc, List.cons_append, readValue,
      readPrefix, Reading.bind_done]
    dsimp only
    rw [readValueFromTag, if_pos rfl, isRead, Reading.bind_done, if_neg notNegative,
      isLength, beginArray_fits framed.1, readsItems, arrayLoop_of_complete rfl,
      RespValue.readBack]
  · obtain ⟨tag, payload, isEncoded, notStar, isRead⟩ :=
      readSingleElement_encode closed true framed
        (fun items same => isArray ⟨items, same⟩) rest
    rw [isEncoded, readValue, readPrefix, Reading.bind_done]
    dsimp only
    rw [readValueFromTag, if_neg notStar, isRead, Reading.map_done]

mutual

theorem readBack_eq_iff (value : RespValue) :
    value.readBack = value ↔ value.AvoidsMin := by
  cases value with
  | integer number =>
      rw [RespValue.readBack, RespValue.AvoidsMin, RespValue.integer.injEq,
        ite_eq_right_iff]
      constructor
      · intro isZero isMin
        rw [← isZero isMin] at isMin
        revert isMin
        decide
      · exact fun notMin isMin => absurd isMin notMin
  | array items =>
      rw [RespValue.readBack, RespValue.AvoidsMin, RespValue.array.injEq]
      exact readBackItems_eq_iff items
  | simple | error | blob | null => rw [RespValue.readBack, RespValue.AvoidsMin, eq_self]

theorem readBackItems_eq_iff (items : List RespValue) :
    RespValue.readBackItems items = items ↔ RespValue.AvoidsMinItems items := by
  cases items with
  | nil => rw [RespValue.readBackItems, RespValue.AvoidsMinItems, eq_self]
  | cons item items =>
      rw [RespValue.readBackItems, RespValue.AvoidsMinItems, List.cons.injEq,
        readBack_eq_iff item, readBackItems_eq_iff items]

end

/-- Read this many frames, or fewer at the end of the connection. -/
def readValues (closed : Bool) : ℕ → Bytes → Reading (List RespValue)
  | 0, input => .done [] input
  | count + 1, input =>
      (readValue closed input).bind fun value input =>
        match value with
        | none => .done [] input
        | some value =>
            (readValues closed count input).map fun values => value :: values

theorem readValues_encode
    (closed : Bool) {values : List RespValue}
    (framed : ∀ value ∈ values, value.Framed) (rest : Bytes) :
    readValues closed values.length (values.flatMap RespValue.encode ++ rest) =
      .done (values.map RespValue.readBack) rest := by
  induction values with
  | nil => rfl
  | cons value values ih =>
      rw [List.length_cons, readValues, List.flatMap_cons, List.append_assoc,
        readValue_encode closed (framed value List.mem_cons_self), Reading.bind_done]
      dsimp only
      rw [ih fun other isValue => framed other (List.mem_cons_of_mem _ isValue),
        Reading.map_done, List.map_cons]

/-! ## Static texts -/

/-- `RespValue` as `encode` matches on it, with the static texts apart. -/
inductive WireValue
  | simple (text : String)
  | error (message : String)
  | integer (value : Int64)
  | blob (bytes : Bytes)
  | null
  | array (items : List WireValue)
  | staticSimple (text : String)
  | staticError (message : String)

namespace WireValue

mutual

/-- `RespValue::encode`. -/
def encode : WireValue → Bytes
  | .simple text => line 43 (asBytes text)
  | .staticSimple text => line 43 (asBytes text)
  | .error message => line 45 (asBytes message)
  | .staticError message => line 45 (asBytes message)
  | .integer value => line 58 (pushI64 value)
  | .blob bytes => encodeBlob bytes
  | .null => line 95 []
  | .array items => line 42 (pushUsize items.length) ++ encodeItems items

/-- The items of an array. -/
def encodeItems : List WireValue → Bytes
  | [] => []
  | item :: items => encode item ++ encodeItems items

end

mutual

/-- The value without the difference between static and other texts. -/
def value : WireValue → RespValue
  | .simple text => .simple text
  | .staticSimple text => .simple text
  | .error message => .error message
  | .staticError message => .error message
  | .integer value => .integer value
  | .blob bytes => .blob bytes
  | .null => .null
  | .array items => .array (valueItems items)

/-- The items of an array. -/
def valueItems : List WireValue → List RespValue
  | [] => []
  | item :: items => value item :: valueItems items

end

theorem length_valueItems (items : List WireValue) :
    (valueItems items).length = items.length := by
  induction items with
  | nil => rfl
  | cons item items ih => rw [valueItems, List.length_cons, ih, List.length_cons]

mutual

theorem encode_value (wire : WireValue) : wire.value.encode = wire.encode := by
  cases wire with
  | array items =>
      rw [value, RespValue.encode, encode, length_valueItems, encodeItems_value]
  | simple | staticSimple | error | staticError | integer | blob | null =>
      rw [value, RespValue.encode, encode]

theorem encodeItems_value (items : List WireValue) :
    RespValue.encodeItems (valueItems items) = encodeItems items := by
  cases items with
  | nil => rw [valueItems, RespValue.encodeItems, encodeItems]
  | cons item items =>
      rw [valueItems, RespValue.encodeItems, encodeItems, encode_value item,
        encodeItems_value items]

end

end WireValue

/-- `read_value` undoes `encode` and consumes exactly one frame, for one value
and for lists of values, exactly when the smallest integer is not inside. -/
theorem readValue_encode_iff (closed : Bool) :
    (∀ (wire : WireValue) (rest : Bytes), wire.value.Framed →
      (readValue closed (wire.encode ++ rest) = .done (some wire.value) rest ↔
        wire.value.AvoidsMin)) ∧
    ∀ (wires : List WireValue) (rest : Bytes),
      (∀ wire ∈ wires, wire.value.Framed) →
      (readValues closed wires.length (wires.flatMap WireValue.encode ++ rest) =
          .done (wires.map WireValue.value) rest ↔
        ∀ wire ∈ wires, wire.value.AvoidsMin) := by
  constructor
  · intro wire rest framed
    rw [← WireValue.encode_value, readValue_encode closed framed,
      ← readBack_eq_iff wire.value, Reading.done.injEq, Option.some.injEq,
      and_iff_left rfl]
  · intro wires rest framed
    have isEncoded : wires.flatMap WireValue.encode =
        (wires.map WireValue.value).flatMap RespValue.encode := by
      rw [List.flatMap_map]
      exact List.flatMap_congr fun wire _ => (WireValue.encode_value wire).symm
    have isRead := @readValues_encode closed (wires.map WireValue.value)
      (fun value isValue => by
        obtain ⟨wire, isWire, rfl⟩ := List.mem_map.mp isValue
        exact framed wire isWire) rest
    rw [List.length_map] at isRead
    rw [isEncoded, isRead, Reading.done.injEq, and_iff_left rfl, List.map_map,
      List.map_inj_left]
    exact forall₂_congr fun wire _ => readBack_eq_iff wire.value

/-- A static text, a nested empty array and a null. -/
theorem readValue_encode_iff_nested :
    readValues true 2 ([WireValue.staticSimple "OK",
      .array [.array [], .null, .integer (-1)]].flatMap WireValue.encode ++ [42]) =
        .done [.simple "OK", .array [.array [], .null, .integer (-1)]] [42] := by
  refine ((readValue_encode_iff true).2 [.staticSimple "OK",
    .array [.array [], .null, .integer (-1)]] [42] ?_).mpr ?_
  · intro wire isWire
    rw [List.mem_cons, List.mem_singleton] at isWire
    obtain rfl | rfl := isWire
    · rw [WireValue.value, RespValue.Framed]
      decide
    · simp [WireValue.value, WireValue.valueItems, RespValue.Framed,
        RespValue.FramedItems, sizeOfRespValue]
  · intro wire isWire
    rw [List.mem_cons, List.mem_singleton] at isWire
    obtain rfl | rfl := isWire
    · rw [WireValue.value, RespValue.AvoidsMin]
      trivial
    · simp only [WireValue.value, WireValue.valueItems, RespValue.AvoidsMin,
        RespValue.AvoidsMinItems]
      decide

/-- The smallest integer is read back as zero. -/
theorem not_always_readValue_encode :
    ¬∀ (closed : Bool) (wire : WireValue) (rest : Bytes), wire.value.Framed →
      readValue closed (wire.encode ++ rest) = .done (some wire.value) rest := by
  intro always
  have framed : (WireValue.integer Int64.minValue).value.Framed := by
    rw [WireValue.value, RespValue.Framed]
    trivial
  have isRead := always true (.integer Int64.minValue) [] framed
  rw [← WireValue.encode_value, readValue_encode true framed, Reading.done.injEq,
    Option.some.injEq, readBack_eq_iff, WireValue.value, RespValue.AvoidsMin] at isRead
  exact isRead.1 rfl

end Cache
end MuonJs
