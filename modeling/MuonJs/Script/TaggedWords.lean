import MuonJs.Lib.LowBits
import MuonJs.Script.Context

/-!
# Tagged words

A JS value is one machine word on a 64-bit target: an integer shifted left by one, a
pointer with its lowest bit set, or one of the special values, whose two lowest bits are
set.  A pointer is told from the others by its three lowest bits, so it has to be a multiple
of eight.
-/

namespace MuonJs
namespace Script
namespace Tagged

/-- `Value`, one word. -/
structure Value where
  word : UInt64
  deriving DecidableEq

/-! ## The code -/

namespace Value

/-- `PTR_MASK`: `WORD_BYTES - 1`. -/
def ptrMask : UInt64 := 8 - 1

/-- The tags of the two lowest bits. -/
def tagInt : UInt64 := 0

@[inherit_doc tagInt]
def tagPtr : UInt64 := 1

@[inherit_doc tagInt]
def tagSpecial : UInt64 := 3

/-- `TAG_SPECIAL_BITS`. -/
def tagSpecialBits : UInt64 := 5

/-- The tags of special values, in five bits. -/
def tagBool : UInt64 := tagSpecial ||| ((0 : UInt64) <<< 2)

@[inherit_doc tagBool]
def tagNull : UInt64 := tagSpecial ||| ((1 : UInt64) <<< 2)

@[inherit_doc tagBool]
def tagUndefined : UInt64 := tagSpecial ||| ((2 : UInt64) <<< 2)

@[inherit_doc tagBool]
def tagException : UInt64 := tagSpecial ||| ((3 : UInt64) <<< 2)

@[inherit_doc tagBool]
def tagShortFunc : UInt64 := tagSpecial ||| ((4 : UInt64) <<< 2)

@[inherit_doc tagBool]
def tagUninitialized : UInt64 := tagSpecial ||| ((5 : UInt64) <<< 2)

@[inherit_doc tagBool]
def tagStringChar : UInt64 := tagSpecial ||| ((6 : UInt64) <<< 2)

@[inherit_doc tagBool]
def tagCatchOffset : UInt64 := tagSpecial ||| ((7 : UInt64) <<< 2)

/-- `Value::make_special`. -/
def makeSpecial (tag v : UInt64) : UInt64 := tag ||| (v <<< tagSpecialBits)

/-- `Value::from_int32`: sign extension, then a shift. -/
def fromInt32 (v : Int32) : Value := ⟨(v.toInt64.toUInt64 <<< 1) ||| tagInt⟩

/-- `Value::is_int`. -/
def isInt (val : Value) : Bool := val.word &&& 1 == tagInt

/-- `Value::int32`: an arithmetic shift. -/
def int32 (val : Value) : Option Int32 :=
  if val.isInt then some (val.word.toInt64 >>> 1).toInt32 else none

/-- `Value::is_ptr`. -/
def isPtr (val : Value) : Bool := val.word &&& ptrMask == tagPtr

/-- `Value::from_ptr`. -/
def fromPtr (ptr : UInt64) : Value := ⟨ptr ||| tagPtr⟩

/-- `Value::as_ptr`. -/
def asPtr (val : Value) : UInt64 := val.word &&& ~~~ptrMask

end Value

open Value

/-- The tags of special values. -/
def specialTags : List UInt64 :=
  [tagBool, tagNull, tagUndefined, tagException, tagShortFunc, tagUninitialized, tagStringChar,
    tagCatchOffset]

/-- A special value: one of the tags with any payload. -/
def Value.IsSpecial (val : Value) : Prop :=
  ∃ tag ∈ specialTags, ∃ payload, val.word = makeSpecial tag payload

/-! ## The kinds of words -/

theorem toNat_ptrMask : ptrMask.toNat = 2 ^ 3 - 1 := by decide

theorem isInt_iff (val : Value) : val.isInt = true ↔ val.word.toNat % 2 = 0 := by
  have isMask : (1 : UInt64).toNat = 2 ^ 1 - 1 := by decide
  rw [isInt, beq_iff_eq, ← UInt64.toNat_inj, LowBits.toNat_and_mask isMask]
  exact Iff.rfl

theorem isPtr_iff (val : Value) : val.isPtr = true ↔ val.word.toNat % 8 = 1 := by
  rw [isPtr, beq_iff_eq, ← UInt64.toNat_inj, LowBits.toNat_and_mask toNat_ptrMask]
  exact Iff.rfl

theorem specialTags_eq : specialTags = [3, 7, 11, 15, 19, 23, 27, 31] := by decide

/-- The two lowest bits of a special value are set. -/
theorem Value.IsSpecial.mod_four {val : Value} (isSpecial : val.IsSpecial) :
    val.word.toNat % 4 = 3 := by
  obtain ⟨tag, isTag, payload, isWord⟩ := isSpecial
  have tagBits : ∀ tag ∈ specialTags, tag.toNat % 2 ^ 2 = 3 := by
    rw [specialTags_eq]
    simp
  have payloadBits : (payload <<< tagSpecialBits).toNat % 2 ^ 2 = 0 :=
    LowBits.toNat_shiftLeft_mod payload tagSpecialBits (by decide) (by decide)
  have combined := LowBits.or_mod_two_pow tag.toNat (payload <<< tagSpecialBits).toNat 2
  rw [tagBits tag isTag, payloadBits] at combined
  rw [isWord, makeSpecial, UInt64.toNat_or]
  exact combined

theorem fromInt32_word (v : Int32) : (fromInt32 v).word = v.toInt64.toUInt64 <<< 1 := by
  rw [fromInt32, tagInt, UInt64.or_zero]

theorem isInt_fromInt32 (v : Int32) : (fromInt32 v).isInt = true := by
  have isEven : (v.toInt64.toUInt64 <<< 1).toNat % 2 ^ 1 = 0 :=
    LowBits.toNat_shiftLeft_mod v.toInt64.toUInt64 1 (by decide) (by decide)
  rw [isInt_iff, fromInt32_word]
  exact isEven

/-- An integer is read back. -/
theorem int32_fromInt32 (v : Int32) : (fromInt32 v).int32 = some v := by
  have low := v.le_toInt
  have high := v.toInt_lt
  have isInt := Int32.toInt_toInt64 v
  have doubled := LowBits.toInt_shiftLeft_one (by omega : -2 ^ 62 ≤ v.toInt64.toInt) (by omega)
  rw [int32, if_pos (isInt_fromInt32 v), fromInt32_word, Option.some.injEq, ← Int32.toInt_inj,
    Int64.toInt_toInt32, LowBits.toInt_shiftRight_one, doubled, isInt,
    Int.mul_ediv_cancel_left _ (by decide)]
  exact Int.bmod_eq_of_le (by omega) (by omega)

/-- The word of an aligned pointer. -/
theorem toNat_fromPtr {ptr : UInt64} (aligned : ptr.toNat % 8 = 0) :
    (fromPtr ptr).word.toNat = ptr.toNat + 1 := by
  have isClear : ptr.toNat % 2 ^ 3 = 0 := aligned
  exact LowBits.toNat_or_low isClear (by decide)

/-- An aligned pointer is a pointer. -/
theorem isPtr_fromPtr {ptr : UInt64} (aligned : ptr.toNat % 8 = 0) :
    (fromPtr ptr).isPtr = true := by
  rw [isPtr_iff, toNat_fromPtr aligned]
  omega

/-- An aligned pointer is read back. -/
theorem asPtr_fromPtr {ptr : UInt64} (aligned : ptr.toNat % 8 = 0) : (fromPtr ptr).asPtr = ptr := by
  have isWord := toNat_fromPtr aligned
  rw [← UInt64.toNat_inj, asPtr, LowBits.toNat_and_not_mask toNat_ptrMask, isWord]
  omega

/-- What is read back as a pointer is a multiple of eight. -/
theorem toNat_asPtr_mod (val : Value) : val.asPtr.toNat % 8 = 0 := by
  rw [asPtr, LowBits.toNat_and_not_mask toNat_ptrMask]
  omega

/-- A pointer is read back exactly when it is a multiple of eight. -/
theorem asPtr_fromPtr_iff (ptr : UInt64) : (fromPtr ptr).asPtr = ptr ↔ ptr.toNat % 8 = 0 :=
  ⟨fun isBack => isBack ▸ toNat_asPtr_mod (fromPtr ptr), asPtr_fromPtr⟩

/-! ### The kinds exclude each other -/

theorem Value.IsSpecial.not_isInt {val : Value} (isSpecial : val.IsSpecial) : val.isInt = false := by
  have isTag := isSpecial.mod_four
  rw [← Bool.not_eq_true, isInt_iff]
  omega

theorem Value.IsSpecial.not_isPtr {val : Value} (isSpecial : val.IsSpecial) : val.isPtr = false := by
  have isTag := isSpecial.mod_four
  rw [← Bool.not_eq_true, isPtr_iff]
  omega

theorem not_isPtr_of_isInt {val : Value} (isInt : val.isInt = true) : val.isPtr = false := by
  rw [isInt_iff] at isInt
  rw [← Bool.not_eq_true, isPtr_iff]
  omega

theorem not_isInt_of_isPtr {val : Value} (isPtr : val.isPtr = true) : val.isInt = false := by
  rw [isPtr_iff] at isPtr
  rw [← Bool.not_eq_true, isInt_iff]
  omega

/-! ### Special values -/

theorem toNat_makeSpecial {tag payload : UInt64} (isTag : tag ∈ specialTags)
    (fits : payload.toNat < 2 ^ 59) :
    (makeSpecial tag payload).toNat = 32 * payload.toNat + tag.toNat := by
  have low : ∀ tag ∈ specialTags, tag.toNat < 2 ^ 5 := by
    rw [specialTags_eq]
    simp
  have isClear : (payload <<< tagSpecialBits).toNat % 2 ^ 5 = 0 :=
    LowBits.toNat_shiftLeft_mod payload tagSpecialBits (by decide) (by decide)
  have isShift : tagSpecialBits.toNat % 64 = 5 := by decide
  rw [makeSpecial, UInt64.or_comm, LowBits.toNat_or_low isClear (low tag isTag),
    UInt64.toNat_shiftLeft, isShift, Nat.shiftLeft_eq]
  omega

/-- The tag and the payload are read back, and so distinct ones make distinct words. -/
theorem makeSpecial_injective {left right leftPayload rightPayload : UInt64}
    (isLeft : left ∈ specialTags) (isRight : right ∈ specialTags)
    (leftFits : leftPayload.toNat < 2 ^ 59) (rightFits : rightPayload.toNat < 2 ^ 59)
    (same : makeSpecial left leftPayload = makeSpecial right rightPayload) :
    left = right ∧ leftPayload = rightPayload := by
  have low : ∀ tag ∈ specialTags, tag.toNat < 2 ^ 5 := by
    rw [specialTags_eq]
    simp
  have leftLow := low left isLeft
  have rightLow := low right isRight
  have sameNumber := congrArg UInt64.toNat same
  rw [toNat_makeSpecial isLeft leftFits, toNat_makeSpecial isRight rightFits] at sameNumber
  exact ⟨UInt64.toNat_inj.mp (by omega), UInt64.toNat_inj.mp (by omega)⟩

theorem toNat_place {start : UInt64} {address : ℕ} (inSpace : start.toNat + address < 2 ^ 64) :
    (start + UInt64.ofNat address).toNat = start.toNat + address := by
  rw [UInt64.toNat_add, UInt64.toNat_ofNat_of_lt' (by omega : address < 2 ^ 64),
    Nat.mod_eq_of_lt inSpace]

end Tagged
end Script
end MuonJs
