import MuonJs.Lib.Numerals
import MuonJs.Lib.Utf8

/-!
# Integers as text

The functions that write an integer digit by digit: in any radix into a vector that is
turned round, and in decimal from the back of a buffer of fixed size.  No result stands for
an index out of range.
-/

namespace MuonJs
namespace Script

open Cache (Bytes asBytes fromUtf8)
open Numerals (writeAt fillBack)

/-- The byte of a minus sign. -/
def minusByte : UInt8 := 45

/-! ## In any radix -/

/-- The table of digits in `format_radix_int`. -/
def radixDigits : Bytes := asBytes "0123456789abcdefghijklmnopqrstuvwxyz"

/-- The loop of `format_radix_int`: the digits of a number, the last one first. -/
def pushRadixDigits (radix : ℕ) (big : 1 < radix) (n : ℕ) (out : Bytes) : Option Bytes :=
  if _ : n = 0 then some out
  else
    match radixDigits[n % radix]? with
    | none => none
    | some digit => pushRadixDigits radix big (n / radix) (out ++ [digit])
termination_by n
decreasing_by exact Nat.div_lt_self (Nat.pos_of_ne_zero ‹_›) big

/-- `format_radix_int`. -/
def formatRadixInt (value : Int64) (radix : UInt32) : Option String :=
  if isOutside : radix.toNat < 2 ∨ 36 < radix.toNat then some ""
  else if value.toInt = 0 then some "0"
  else
    let negative := decide (value.toInt < 0)
    let n := if negative then -value.toInt else value.toInt
    (pushRadixDigits radix.toNat (by omega) n.toNat []).map fun out =>
      let out := if negative then out ++ [minusByte] else out
      (fromUtf8 out.reverse).getD ""

/-! ## In decimal -/

/-- `b'0' + digit`. -/
def decimalByte (digit : ℕ) : UInt8 := 48 + UInt8.ofNat digit

/-- The digits of a number and its sign, from the back of a buffer. -/
def fillSigned (negative : Bool) (magnitude : ℕ) (buf : Bytes) : Option (Bytes × ℕ) :=
  match fillBack 10 decimalByte buf.length magnitude buf with
  | none => none
  | some (buf, idx) =>
      if negative then
        match idx with
        | 0 => none
        | idx + 1 => (writeAt buf idx minusByte).map fun buf => (buf, idx)
      else some (buf, idx)

/-- `int_to_decimal_bytes`: the part of the buffer that is returned. -/
def intToDecimalBytes (value : Int32) (buf : Vector UInt8 12) : Option Bytes :=
  if value.toInt = 0 then (writeAt buf.toList 0 48).map fun buf => buf.take 1
  else
    let negative := decide (value.toInt < 0)
    let absValue := if negative then -value.toInt else value.toInt
    (fillSigned negative absValue.toNat buf.toList).map fun (buf, idx) => buf.drop idx

/-- `buf.copy_within(idx.., 0)`. -/
def copyToFront (buf : Bytes) (idx : ℕ) : Bytes :=
  buf.drop idx ++ buf.drop (buf.length - idx)

/-- `i32_to_stack_bytes`: the number of bytes written, and the buffer. -/
def i32ToStackBytes (n : Int32) (buf : Vector UInt8 12) : Option (ℕ × Bytes) :=
  if n.toInt = 0 then (writeAt buf.toList 0 48).map fun buf => (1, buf)
  else
    let negative := decide (n.toInt < 0)
    let absVal := UInt32.ofInt (if negative then -n.toInt else n.toInt)
    (fillSigned negative absVal.toNat buf.toList).map fun (buf, idx) =>
      (buf.length - idx, if 0 < idx then copyToFront buf idx else buf)

/-- `write_decimal`: the number of bytes written, and the buffer. -/
def writeDecimal (buf : Bytes) (value : UInt64) : Option (ℕ × Bytes) :=
  if value.toNat = 0 then
    if buf.isEmpty then some (0, buf)
    else (writeAt buf 0 48).map fun buf => (1, buf)
  else
    (fillBack 10 decimalByte 20 value.toNat (List.replicate 20 0)).map fun (tmp, idx) =>
      let outLen := min (tmp.length - idx) buf.length
      (outLen, (tmp.drop idx).take outLen ++ buf.drop outLen)

/-! ## The text of an integer -/

/-- The byte of a digit. -/
def digitByte (digit : ℕ) : UInt8 := radixDigits.getD digit 0

/-- The canonical text of an integer in a radix: a minus sign when it is negative, then its
digits without leading zeros. -/
def IsIntegerText (radix : ℕ) (text : Bytes) (number : ℤ) : Prop :=
  Numerals.IsText radix digitByte minusByte text number

theorem length_radixDigits : radixDigits.length = 36 := by decide

theorem getElem?_radixDigits {digit : ℕ} (isDigit : digit < 36) :
    radixDigits[digit]? = some (digitByte digit) := by
  have inRange : digit < radixDigits.length := length_radixDigits ▸ isDigit
  rw [digitByte, List.getD_eq_getElem _ _ inRange, List.getElem?_eq_getElem inRange]

theorem decimalByte_eq : ∀ digit < 10, decimalByte digit = digitByte digit := by decide

theorem digitByte_ascii : ∀ digit < 36, (digitByte digit).toNat < 128 := by decide

/-- The loop pushes the digits of the number, the last one first. -/
theorem pushRadixDigits_eq {radix : ℕ} (big : 1 < radix) (small : radix ≤ 36) (n : ℕ) (out : Bytes) :
    pushRadixDigits radix big n out = some (out ++ (Nat.digits radix n).map digitByte) := by
  induction n using Nat.strong_induction_on generalizing out with
  | _ n ih =>
      rw [pushRadixDigits]
      by_cases isZero : n = 0
      · rw [dif_pos isZero, isZero, Nat.digits_zero, List.map_nil, List.append_nil]
      · have isPositive := Nat.pos_of_ne_zero isZero
        have isDigit : n % radix < 36 := (Nat.mod_lt n (by omega)).trans_le small
        rw [dif_neg isZero, getElem?_radixDigits isDigit]
        dsimp only
        rw [ih _ (Nat.div_lt_self isPositive big), Nat.digits_def' big isPositive, List.map_cons,
          List.append_assoc, List.singleton_append]

/-- The text of an integer other than zero: its sign and its digits. -/
def signedDigits (radix : ℕ) (symbol : ℕ → UInt8) (number : ℤ) : Bytes :=
  (if number < 0 then [minusByte] else []) ++ (Nat.digits radix number.natAbs).reverse.map symbol

theorem isText_signedDigits {radix : ℕ} (big : 1 < radix) (symbol : ℕ → UInt8) {number : ℤ}
    (notZero : number ≠ 0) :
    Numerals.IsText radix symbol minusByte (signedDigits radix symbol number) number := by
  refine ⟨Numerals.numeral radix number.natAbs, Numerals.isNumeral_numeral big _, ?_⟩
  rw [signedDigits, Numerals.numeral, if_neg (Int.natAbs_eq_zero.not.mpr notZero)]

theorem isIntegerText_zero {radix : ℕ} (big : 1 < radix) : IsIntegerText radix [48] 0 :=
  ⟨[0], Numerals.isNumeral_numeral big 0, by decide⟩

theorem ascii_of_isIntegerText {radix : ℕ} (small : radix ≤ 36) {text : Bytes} {number : ℤ}
    (isText : IsIntegerText radix text number) : ∀ byte ∈ text, byte.toNat < 128 := by
  obtain ⟨digits, isNumeral, rfl⟩ := isText
  intro byte isByte
  rcases List.mem_append.mp isByte with isSign | isDigits
  · split at isSign
    · rw [List.mem_singleton.mp isSign]
      decide
    · cases isSign
  · obtain ⟨digit, isDigit, rfl⟩ := List.mem_map.mp isDigits
    exact digitByte_ascii digit ((isNumeral.below digit isDigit).trans_le small)

/-! ## The printers -/

theorem magnitude_eq (number : ℤ) :
    (if decide (number < 0) then -number else number) = number.natAbs := by
  by_cases sign : number < 0
  · rw [if_pos (decide_eq_true sign)]
    omega
  · rw [if_neg (by simpa using sign)]
    omega

theorem formatRadixInt_spec (value : Int64) {radix : UInt32} (low : 2 ≤ radix.toNat)
    (high : radix.toNat ≤ 36) :
    ∃ text, formatRadixInt value radix = some text ∧
      IsIntegerText radix.toNat (asBytes text) value.toInt := by
  rw [formatRadixInt, dif_neg (by omega)]
  by_cases isZero : value.toInt = 0
  · rw [if_pos isZero, isZero]
    exact ⟨"0", rfl, isIntegerText_zero low⟩
  · rw [if_neg isZero]
    have isText : IsIntegerText radix.toNat (signedDigits radix.toNat digitByte value.toInt)
        value.toInt := isText_signedDigits low digitByte isZero
    have isUtf8 := (Cache.isSome_fromUtf8_iff _).mpr
      (Cache.isUtf8_ascii (ascii_of_isIntegerText high isText))
    obtain ⟨text, isString⟩ := Option.isSome_iff_exists.mp isUtf8
    have turned : (if decide (value.toInt < 0) = true then
          (Nat.digits radix.toNat value.toInt.natAbs).map digitByte ++ [minusByte]
        else (Nat.digits radix.toNat value.toInt.natAbs).map digitByte).reverse =
        signedDigits radix.toNat digitByte value.toInt := by
      by_cases sign : value.toInt < 0
      · simp [signedDigits, sign]
      · simp [signedDigits, sign]
    dsimp only
    rw [magnitude_eq, Int.toNat_natCast, pushRadixDigits_eq low high, Option.map_some, List.nil_append, turned, isString]
    refine ⟨text, rfl, ?_⟩
    rw [Cache.asBytes_of_fromUtf8 isString]
    exact isText

/-- The buffer is filled from the back with the text of the integer. -/
theorem fillSigned_eq (number : ℤ) (buf : Bytes)
    (room : (Nat.digits 10 number.natAbs).length < buf.length) :
    ∃ front, fillSigned (decide (number < 0)) number.natAbs buf =
        some (front ++ signedDigits 10 decimalByte number, front.length) ∧
      front.length + (signedDigits 10 decimalByte number).length = buf.length := by
  have filled := Numerals.fillBack_eq (by decide) decimalByte buf [] room.le
  rw [List.append_nil, List.append_nil] at filled
  set count := (Nat.digits 10 number.natAbs).length with isCount
  have isFront : (buf.take (buf.length - count)).length = buf.length - count :=
    List.length_take_of_le (Nat.sub_le _ _)
  have written : ((Nat.digits 10 number.natAbs).reverse.map decimalByte).length = count := by
    rw [List.length_map, List.length_reverse]
  rw [fillSigned, filled]
  by_cases sign : number < 0
  · obtain ⟨front, old, isSplit⟩ : ∃ front old, buf.take (buf.length - count) = front ++ [old] := by
      refine ⟨_, _, (List.dropLast_append_getLast (?_ : buf.take (buf.length - count) ≠ [])).symm⟩
      intro isNil
      rw [isNil, List.length_nil] at isFront
      omega
    have isLength : buf.length - count = front.length + 1 := by
      rw [← isFront, isSplit, List.length_append, List.length_singleton]
    refine ⟨front, ?_, ?_⟩
    · rw [decide_eq_true sign, isSplit, isLength, signedDigits, if_pos sign, List.append_assoc,
        List.singleton_append]
      dsimp only
      rw [if_pos rfl, Numerals.writeAt_append, Option.map_some, List.singleton_append]
    · rw [signedDigits, if_pos sign, List.length_append, written, List.length_singleton]
      omega
  · refine ⟨buf.take (buf.length - count), ?_, ?_⟩
    · rw [decide_eq_false sign, signedDigits, if_neg sign, isFront]
      rfl
    · rw [signedDigits, if_neg sign, List.nil_append, written, isFront]
      omega

theorem isIntegerText_signedDigits {number : ℤ} (notZero : number ≠ 0) :
    IsIntegerText 10 (signedDigits 10 decimalByte number) number :=
  (isText_signedDigits (by decide) decimalByte notZero).congr decimalByte_eq

/-- A 32-bit integer has at most ten digits. -/
theorem length_digits_int32 (value : Int32) : (Nat.digits 10 value.toInt.natAbs).length ≤ 10 := by
  rw [Nat.digits_length_le_iff (by decide)]
  have low := value.le_toInt
  have high := value.toInt_lt
  omega

theorem writeAt_zero (item : UInt8) {buf : Bytes} (room : 0 < buf.length) :
    writeAt buf 0 item = some (item :: buf.drop 1) := by
  cases buf with
  | nil => cases room
  | cons old buf => exact Numerals.writeAt_append [] old item buf

theorem intToDecimalBytes_spec (value : Int32) (buf : Vector UInt8 12) :
    ∃ text, intToDecimalBytes value buf = some text ∧ IsIntegerText 10 text value.toInt := by
  have isLength : buf.toList.length = 12 := Vector.length_toList
  rw [intToDecimalBytes]
  by_cases isZero : value.toInt = 0
  · rw [if_pos isZero, writeAt_zero _ (by omega), isZero]
    exact ⟨[48], rfl, isIntegerText_zero (by decide)⟩
  · have small := length_digits_int32 value
    obtain ⟨front, filled, -⟩ := fillSigned_eq value.toInt buf.toList (by omega)
    rw [if_neg isZero]
    dsimp only
    rw [magnitude_eq, Int.toNat_natCast, filled, Option.map_some, List.drop_left]
    exact ⟨_, rfl, isIntegerText_signedDigits isZero⟩

/-- The text behind a front is moved over it. -/
theorem moved_eq (front text : Bytes) :
    (if 0 < front.length then copyToFront (front ++ text) front.length else front ++ text) =
      text ++ (front ++ text).drop text.length := by
  by_cases moves : 0 < front.length
  · rw [if_pos moves, copyToFront, List.drop_left, List.length_append, Nat.add_sub_cancel_left]
  · have isNil : front = [] := List.length_eq_zero_iff.mp (Nat.eq_zero_of_not_pos moves)
    rw [if_neg moves, isNil, List.nil_append, List.drop_length, List.append_nil]

theorem toNat_ofInt_natAbs (n : Int32) : (UInt32.ofInt n.toInt.natAbs).toNat = n.toInt.natAbs := by
  have low := n.le_toInt
  have high := n.toInt_lt
  have fits : ((n.toInt.natAbs : ℤ) % 2 ^ 32).toNat < 2 ^ 32 := by omega
  rw [UInt32.ofInt, UInt32.toNat_ofNat_of_lt' fits]
  omega

theorem i32ToStackBytes_spec (n : Int32) (buf : Vector UInt8 12) :
    ∃ text out, i32ToStackBytes n buf = some (text.length, out) ∧ out.length = 12 ∧
      out.take text.length = text ∧ IsIntegerText 10 text n.toInt := by
  have isLength : buf.toList.length = 12 := Vector.length_toList
  rw [i32ToStackBytes]
  by_cases isZero : n.toInt = 0
  · rw [if_pos isZero, writeAt_zero _ (by omega), isZero]
    refine ⟨[48], 48 :: buf.toList.drop 1, rfl, ?_, rfl, isIntegerText_zero (by decide)⟩
    rw [List.length_cons, List.length_drop]
    omega
  · have small := length_digits_int32 n
    obtain ⟨front, filled, isWhole⟩ := fillSigned_eq n.toInt buf.toList (by omega)
    set text := signedDigits 10 decimalByte n.toInt
    have isRest : (front ++ text).length - front.length = text.length := by
      rw [List.length_append, Nat.add_sub_cancel_left]
    refine ⟨text, text ++ (front ++ text).drop text.length, ?_, ?_, List.take_left,
      isIntegerText_signedDigits isZero⟩
    · rw [if_neg isZero]
      dsimp only
      rw [magnitude_eq, toNat_ofInt_natAbs, filled, Option.map_some, isRest, moved_eq]
    · rw [List.length_append, List.length_drop, List.length_append]
      omega

theorem signedDigits_natCast (radix : ℕ) (symbol : ℕ → UInt8) (number : ℕ) :
    signedDigits radix symbol number = (Nat.digits radix number).reverse.map symbol := by
  rw [signedDigits, if_neg (by omega), List.nil_append, Int.natAbs_natCast]

theorem writeDecimal_spec (buf : Bytes) (value : UInt64) :
    ∃ text, IsIntegerText 10 text value.toNat ∧
      writeDecimal buf value = some (min text.length buf.length,
        text.take (min text.length buf.length) ++ buf.drop (min text.length buf.length)) := by
  rw [writeDecimal]
  by_cases isZero : value.toNat = 0
  · rw [if_pos isZero, isZero]
    refine ⟨[48], isIntegerText_zero (by decide), ?_⟩
    cases buf with
    | nil => rfl
    | cons old buf =>
        have isOne : min [(48 : UInt8)].length (old :: buf).length = 1 := by simp
        rw [isOne, if_neg (by simp), writeAt_zero _ (by simp)]
        rfl
  · set number := value.toNat
    have small : (Nat.digits 10 number).length ≤ (List.replicate 20 (0 : UInt8)).length := by
      rw [Nat.digits_length_le_iff (by decide), List.length_replicate]
      have bound := value.toNat_lt
      omega
    have filled := Numerals.fillBack_eq (by decide) decimalByte (List.replicate 20 0) [] small
    rw [List.append_nil, List.append_nil, List.length_replicate, ← signedDigits_natCast] at filled
    set text := signedDigits 10 decimalByte (number : ℤ)
    set idx := 20 - (Nat.digits 10 number).length
    have isFront : ((List.replicate 20 (0 : UInt8)).take idx).length = idx :=
      List.length_take_of_le (by rw [List.length_replicate]; exact Nat.sub_le _ _)
    have isBack : ((List.replicate 20 0).take idx ++ text).drop idx = text :=
      List.drop_left' isFront
    rw [if_neg isZero, filled, Option.map_some]
    dsimp only
    refine ⟨text, isIntegerText_signedDigits (Int.natCast_ne_zero.mpr isZero), ?_⟩
    rw [isBack, List.length_append, isFront, Nat.add_sub_cancel_left]

/-- The printers write the canonical text of every integer: in any radix from 2 to 36, the
same decimal text of a 32-bit integer from both of its buffers, whatever they held, and as
much of the decimal text of a `usize` as its buffer takes. -/
theorem printers_exact :
    (∀ (value : Int64) (radix : UInt32), 2 ≤ radix.toNat → radix.toNat ≤ 36 →
      ∃ text, formatRadixInt value radix = some text ∧
        IsIntegerText radix.toNat (asBytes text) value.toInt) ∧
    (∀ (value : Int32) (buf other : Vector UInt8 12), ∃ text out,
      IsIntegerText 10 text value.toInt ∧
        intToDecimalBytes value buf = some text ∧
        i32ToStackBytes value other = some (text.length, out) ∧
        out.length = 12 ∧ out.take text.length = text) ∧
    (∀ (value : UInt64) (buf : Bytes), ∃ text, IsIntegerText 10 text value.toNat ∧
      writeDecimal buf value = some (min text.length buf.length,
        text.take (min text.length buf.length) ++ buf.drop (min text.length buf.length))) := by
  refine ⟨fun value radix => formatRadixInt_spec value, ?_, fun value buf => writeDecimal_spec buf value⟩
  intro value buf other
  obtain ⟨text, isReturned, isText⟩ := intToDecimalBytes_spec value buf
  obtain ⟨moved, out, isMoved, isLength, isFront, isSame⟩ := i32ToStackBytes_spec value other
  have same : moved = text := isSame.unique (by decide) isText
  rw [same] at isMoved isFront
  exact ⟨text, out, isText, isReturned, isMoved, isLength, isFront⟩

theorem printers_exact_least :
    ∃ text, formatRadixInt Int64.minValue 36 = some text ∧
      IsIntegerText 36 (asBytes text) (-9223372036854775808) :=
  printers_exact.1 Int64.minValue 36 (by decide) (by decide)

end Script
end MuonJs
