import MuonJs.Script.Arithmetic

/-!
# Operands of the bit instructions

The instructions on bits convert numbers that are not inline integers by `as i32` and
`as u32`, which keep a number in range, where the language reduces it modulo `2 ^ 32`.
This module says for which operands the two come to the same, and which instructions
push the result of the language.
-/

namespace MuonJs
namespace Script

open Cache (Bytes F64 asBytes)

/-! ## Conversions that agree -/

/-- `as i32` reduces a number as `float_to_int32` does. -/
def ReducedI32 (number : F64) : Prop :=
  number.isNan = true ∨ number.isInfinite = false ∧
    (-2 ^ 31 ≤ number.truncate ∧ number.truncate < 2 ^ 31 ∨
      2 ^ 31 ≤ number.truncate ∧ number.truncate % 2 ^ 32 = 2 ^ 31 - 1 ∨
      number.truncate < -2 ^ 31 ∧ number.truncate % 2 ^ 32 = 2 ^ 31)

/-- `as u32` reduces a number as `float_to_uint32` does, and the sign bit is not set. -/
def ReducedU32 (number : F64) : Prop :=
  number.isNan = true ∨ number.isInfinite = true ∧ number.isNegative = true ∨
    number.isInfinite = false ∧
      (0 ≤ number.truncate ∧ number.truncate < 2 ^ 31 ∨
        number.truncate < 0 ∧ number.truncate % 2 ^ 32 = 0)

/-- `as u32` keeps the low five bits that `float_to_uint32` gives. -/
def ReducedCount (number : F64) : Prop :=
  number.isNan = true ∨ number.isInfinite = true ∧ number.isNegative = true ∨
    number.isInfinite = false ∧
      (0 ≤ number.truncate ∧ number.truncate < 2 ^ 32 ∨
        2 ^ 32 ≤ number.truncate ∧ number.truncate % 32 = 31 ∨
        number.truncate < 0 ∧ number.truncate % 32 = 0)

section Number

variable (number : F64)

theorem asI32_eq :
    asI32 number = if number.isNan then 0
      else Int32.ofInt (max (-2 ^ 31) (min (2 ^ 31 - 1) number.truncate)) := by
  unfold asI32
  dsimp only
  have isSigned : (if number.bits.toNat < 2 ^ 63 then
      ((if 1075 ≤ number.magnitude / 2 ^ 52 then
          number.significand * 2 ^ (number.magnitude / 2 ^ 52 - 1075)
        else number.significand / 2 ^ (1075 - max (number.magnitude / 2 ^ 52) 1) : ℕ) : ℤ)
      else -((if 1075 ≤ number.magnitude / 2 ^ 52 then
          number.significand * 2 ^ (number.magnitude / 2 ^ 52 - 1075)
        else number.significand / 2 ^ (1075 - max (number.magnitude / 2 ^ 52) 1) : ℕ) : ℤ)) =
      number.truncate := by
    rw [F64.truncate, F64.isNegative]
    by_cases small : number.bits.toNat < 2 ^ 63
    · rw [if_pos small, decide_eq_false (not_le.mpr small), if_neg Bool.false_ne_true]
    · rw [if_neg small, decide_eq_true (not_lt.mp small), if_pos rfl]
  exact congrArg (fun signed => if number.isNan then 0
    else Int32.ofInt (max (-2 ^ 31) (min (2 ^ 31 - 1) signed))) isSigned

theorem toInt_asI32 :
    (asI32 number).toInt = if number.isNan then 0
      else max (-2 ^ 31) (min (2 ^ 31 - 1) number.truncate) := by
  rw [asI32_eq]
  split
  · rfl
  · exact Int32.toInt_ofInt_of_le (le_max_left _ _) (by omega)

theorem toNat_asU32 :
    ((asU32 number).toNat : ℤ) = if number.isNan then 0
      else max 0 (min (2 ^ 32 - 1) number.truncate) := by
  unfold asU32
  split
  · rfl
  · rw [UInt32.toNat_ofNat_of_lt' (show _ < 2 ^ 32 by omega)]
    omega

/-- The integer part of an infinity is out of range. -/
theorem truncate_of_isInfinite (isInfinite : number.isInfinite = true) :
    if number.isNegative then number.truncate ≤ -2 ^ 64 else 2 ^ 64 ≤ number.truncate := by
  rw [F64.isInfinite, decide_eq_true_iff] at isInfinite
  have isExponent : F64.infinityBits / 2 ^ 52 = 2047 := by decide
  have isFraction : F64.infinityBits % 2 ^ 52 = 0 := by decide
  have isLow : 12 ≤ 2047 - 1075 := by decide
  have notZero : ¬2047 = 0 := by decide
  have reaches : 1075 ≤ 2047 := by decide
  rw [F64.truncate, F64.significand, isInfinite, isExponent, isFraction, if_neg notZero,
    if_pos reaches, zero_add]
  generalize 2047 - 1075 = power at isLow
  have isLarge : 2 ^ 12 ≤ 2 ^ power := Nat.pow_le_pow_right (by decide) isLow
  generalize 2 ^ power = factor at isLarge
  cases number.isNegative with
  | true =>
      rw [if_pos rfl, if_pos rfl]
      omega
  | false =>
      rw [if_neg Bool.false_ne_true, if_neg Bool.false_ne_true]
      omega

theorem toInt_floatToInt32 :
    (floatToInt32 number).toInt =
      if number.isNan = true ∨ number.isInfinite = true then 0
      else (number.truncate + 2 ^ 31) % 2 ^ 32 - 2 ^ 31 := by
  rw [floatToInt32, toInt_toInt32, toNat_floatToUint32]
  split
  case isTrue => rfl
  case isFalse =>
    split <;> omega

theorem asI32_eq_iff : asI32 number = floatToInt32 number ↔ ReducedI32 number := by
  have isInfinity := truncate_of_isInfinite number
  rw [← Int32.toInt_inj, toInt_asI32, toInt_floatToInt32, ReducedI32]
  cases number.isNan <;> cases hasInfinity : number.isInfinite <;>
    simp only [hasInfinity, Bool.false_eq_true, if_false, if_true, true_or, or_true, false_or,
      or_false, true_and, false_and, Bool.true_eq_false, forall_true_left, iff_false] at isInfinity ⊢
  · omega
  · split at isInfinity <;> omega

/-- The clamped number is the reduced one, or has its lowest five bits. -/
theorem asU32_iff :
    (asU32 number = floatToUint32 number ∧ (asU32 number).toNat < 2 ^ 31 ↔ ReducedU32 number) ∧
      (asU32 number &&& 31 = floatToUint32 number &&& 31 ↔ ReducedCount number) := by
  have isInfinity := truncate_of_isInfinite number
  have isClamped := toNat_asU32 number
  rw [← UInt32.toNat_inj, ← UInt32.toNat_inj, toNat_and_31, toNat_and_31, toNat_floatToUint32,
    ReducedU32, ReducedCount]
  generalize (asU32 number).toNat = clamped at isClamped ⊢
  cases hasNan : number.isNan <;> cases hasInfinity : number.isInfinite <;>
    cases hasSign : number.isNegative <;>
    simp only [hasNan, hasInfinity, hasSign, Bool.false_eq_true, if_false, if_true, true_or, or_true,
      false_or, or_false, true_and, false_and, Bool.true_eq_false, forall_true_left, iff_false,
      iff_true] at isInfinity isClamped ⊢ <;>
    omega

end Number

/-! ## Numbers that are not inline -/

namespace BinaryInstr

/-- The instructions on bits. -/
def isBits : BinaryInstr → Bool
  | .add | .sub | .mul | .div | .mod => false
  | .bitAnd | .bitOr | .bitXor | .shl | .shr | .uShr => true

/-- What an instruction on bits computes from numbers. -/
def onNumbers : BinaryInstr → F64 → F64 → Int32
  | .bitAnd => fun x y => asI32 x &&& asI32 y
  | .bitOr => fun x y => asI32 x ||| asI32 y
  | .bitXor => fun x y => asI32 x ^^^ asI32 y
  | .shl => fun x y => shlI32 (asI32 x) (asU32 y)
  | .shr => fun x y => shrI32 (asI32 x) (asU32 y)
  | .uShr => fun x y => (shrU32 (asU32 x) (asU32 y)).toInt32
  | _ => fun _ _ => 0

/-- The left operand is reduced as the language says. -/
def LeftReduced : BinaryInstr → F64 → Prop
  | .uShr => ReducedU32
  | _ => ReducedI32

/-- The right operand is reduced as the language says. -/
def RightReduced : BinaryInstr → F64 → Prop
  | .shl | .shr | .uShr => ReducedCount
  | _ => ReducedI32

end BinaryInstr

section Heap

variable (conversions : Conversions) {ctx : Context} {address : ℕ} {x y : F64}

theorem jsToNumber_of_numberOf {val : JSValue} (isNumber : ctx.numberOf val = some x) :
    ctx.jsToNumber conversions val = (some x, ctx) := by
  cases val with
  | int n =>
      cases isNumber
      rfl
  | ptr address =>
      unfold Context.numberOf Context.floatValue at isNumber
      dsimp only at isNumber
      split at isNumber
      case h_1 stored =>
        cases isNumber
        exact Context.jsToNumber_of_float conversions stored
      case h_2 => cases isNumber
  | _ => cases isNumber

theorem numberOf_of_stored (stored : ctx.heap address = some (.float x)) :
    ctx.numberOf (.ptr address) = some x := by
  simp only [Context.numberOf, Context.floatValue, stored]

theorem exec_eq_bitwise {op : BinaryInstr} (isBits : op.isBits = true) (ctx : Context) :
    ∃ onInts, op.exec conversions ctx = bitwise conversions ctx onInts op.onNumbers := by
  cases op with
  | add | sub | mul | div | mod => cases isBits
  | bitAnd | bitOr | bitXor | shl | shr | uShr => exact ⟨_, rfl⟩

/-- With an operand that is not inline, an instruction on bits works on numbers. -/
theorem exec_left {op : BinaryInstr} (isBits : op.isBits = true)
    (stored : ctx.heap address = some (.float x)) {right : JSValue}
    (isRight : ctx.numberOf right = some y) :
    op.exec conversions ctx (.ptr address) right = pushInt ctx (op.onNumbers x y) := by
  obtain ⟨onInts, isBitwise⟩ := exec_eq_bitwise conversions isBits ctx
  have left := jsToNumber_of_numberOf conversions (numberOf_of_stored stored)
  have isNumber := jsToNumber_of_numberOf conversions isRight
  simp only [isBitwise, bitwise, withNumbers, withNumber, left, isNumber]

@[inherit_doc exec_left]
theorem exec_right {op : BinaryInstr} (isBits : op.isBits = true)
    (stored : ctx.heap address = some (.float y)) {left : JSValue}
    (isLeft : ctx.numberOf left = some x) :
    op.exec conversions ctx left (.ptr address) = pushInt ctx (op.onNumbers x y) := by
  obtain ⟨onInts, isBitwise⟩ := exec_eq_bitwise conversions isBits ctx
  have right := jsToNumber_of_numberOf conversions (numberOf_of_stored stored)
  have isNumber := jsToNumber_of_numberOf conversions isLeft
  cases left <;> simp only [isBitwise, bitwise, withNumbers, withNumber, right, isNumber]

/-- Operands that are reduced give the result of the language. -/
theorem pushes_of_reduced {op : BinaryInstr} (isBits : op.isBits = true)
    (left : op.LeftReduced x) (right : op.RightReduced y) :
    Pushes ctx (pushInt ctx (op.onNumbers x y)) (op.result x y) := by
  cases op with
  | add | sub | mul | div | mod => cases isBits
  | bitAnd | bitOr | bitXor =>
      refine pushes_pushInt_iff.mpr ((same_i32AsF64_iff _ _).mpr ?_)
      simp only [BinaryInstr.onNumbers, (asI32_eq_iff x).mpr left, (asI32_eq_iff y).mpr right]
  | shl | shr =>
      refine pushes_pushInt_iff.mpr ((same_i32AsF64_iff _ _).mpr ?_)
      simp only [BinaryInstr.onNumbers, shlI32, shrI32, (asI32_eq_iff x).mpr left,
        (asU32_iff y).2.mpr right]
  | uShr =>
      obtain ⟨isLeft, small⟩ := (asU32_iff x).1.mpr left
      refine (pushes_unsigned_iff ctx _ _).mpr ⟨?_, ?_⟩
      · rw [shrU32, shrU32, isLeft, (asU32_iff y).2.mpr right]
      · rw [toNat_shrU32]
        exact (Nat.div_le_self _ _).trans_lt small

/-! Each condition is needed: there is an integer, reduced itself, that shows the
difference. -/

namespace BinaryInstr

/-- A right operand that shows how the left one is reduced. -/
def rightProbe : BinaryInstr → Int32
  | .bitAnd => -1
  | _ => 0

/-- A left operand that shows how the right one is reduced. -/
def leftProbe : BinaryInstr → Int32
  | .bitAnd => -1
  | .shl => 1
  | .shr => Int32.minValue
  | .uShr => Int32.maxValue
  | _ => 0

end BinaryInstr

theorem reducedI32_i32AsF64 (n : Int32) : ReducedI32 (i32AsF64 n) :=
  (asI32_eq_iff _).mp ((Json.asI32_i32AsF64 n).trans (floatToInt32_i32AsF64 n).symm)

theorem leftReduced_leftProbe (op : BinaryInstr) : op.LeftReduced (i32AsF64 op.leftProbe) := by
  cases op with
  | uShr => exact (asU32_iff _).1.mp (by decide +kernel)
  | _ => exact reducedI32_i32AsF64 _

theorem rightReduced_rightProbe (op : BinaryInstr) : op.RightReduced (i32AsF64 op.rightProbe) := by
  cases op with
  | shl | shr | uShr => exact (asU32_iff _).2.mp (by decide +kernel)
  | _ => exact reducedI32_i32AsF64 _

theorem shift_zero (signed : Int32) (unsigned : UInt32) :
    shlI32 signed 0 = signed ∧ shrI32 signed 0 = signed ∧ shrU32 unsigned 0 = unsigned :=
  ⟨Int32.shiftLeft_zero, Int32.shiftRight_zero, UInt32.shiftRight_zero⟩

theorem leftReduced_of_pushes {op : BinaryInstr} (isBits : op.isBits = true)
    (pushes : Pushes ctx (pushInt ctx (op.onNumbers x (i32AsF64 op.rightProbe)))
      (op.result x (i32AsF64 op.rightProbe))) :
    op.LeftReduced x := by
  have noCount : asU32 (i32AsF64 0) = 0 ∧ floatToUint32 (i32AsF64 0) = 0 := by decide +kernel
  cases op with
  | add | sub | mul | div | mod => cases isBits
  | bitAnd | bitOr | bitXor =>
      have same := (same_i32AsF64_iff _ _).mp (pushes_pushInt_iff.mp pushes)
      simp only [BinaryInstr.onNumbers, BinaryInstr.rightProbe, Json.asI32_i32AsF64,
        floatToInt32_i32AsF64, Int32.and_neg_one, Int32.or_zero, Int32.xor_zero] at same
      exact (asI32_eq_iff x).mp same
  | shl | shr =>
      have same := (same_i32AsF64_iff _ _).mp (pushes_pushInt_iff.mp pushes)
      simp only [BinaryInstr.onNumbers, BinaryInstr.rightProbe, noCount, shift_zero _ 0] at same
      exact (asI32_eq_iff x).mp same
  | uShr =>
      have same := (pushes_unsigned_iff ctx _ _).mp pushes
      simp only [BinaryInstr.rightProbe, noCount, shift_zero 0] at same
      exact (asU32_iff x).1.mp same

/-- The probes tell all counts apart. -/
theorem probes_injective : ∀ i j : Fin 32,
    ((1 : Int32) <<< (UInt32.ofNat i).toInt32 = 1 <<< (UInt32.ofNat j).toInt32 → i = j) ∧
    (Int32.minValue >>> (UInt32.ofNat i).toInt32 = Int32.minValue >>> (UInt32.ofNat j).toInt32 →
      i = j) ∧
    (Int32.maxValue.toUInt32 >>> UInt32.ofNat i = Int32.maxValue.toUInt32 >>> UInt32.ofNat j →
      i = j) := by
  decide +kernel

theorem exists_fin_count (count : UInt32) : ∃ i : Fin 32, count &&& 31 = UInt32.ofNat i := by
  have inRange : (count &&& 31).toNat < 32 := by
    rw [toNat_and_31]
    exact Nat.mod_lt _ (by decide)
  exact ⟨⟨_, inRange⟩, UInt32.ofNat_toNat.symm⟩

theorem rightReduced_of_pushes {op : BinaryInstr} (isBits : op.isBits = true)
    (pushes : Pushes ctx (pushInt ctx (op.onNumbers (i32AsF64 op.leftProbe) y))
      (op.result (i32AsF64 op.leftProbe) y)) :
    op.RightReduced y := by
  obtain ⟨clamped, isClamped⟩ := exists_fin_count (asU32 y)
  obtain ⟨reduced, isReduced⟩ := exists_fin_count (floatToUint32 y)
  have injective := probes_injective clamped reduced
  have isUnsigned : asU32 (i32AsF64 Int32.maxValue) = Int32.maxValue.toUInt32 := by decide +kernel
  have sameCount (same : clamped = reduced) : ReducedCount y :=
    (asU32_iff y).2.mp (by rw [isClamped, isReduced, same])
  cases op with
  | add | sub | mul | div | mod => cases isBits
  | bitAnd | bitOr | bitXor =>
      have same := (same_i32AsF64_iff _ _).mp (pushes_pushInt_iff.mp pushes)
      simp only [BinaryInstr.onNumbers, BinaryInstr.leftProbe, Json.asI32_i32AsF64,
        floatToInt32_i32AsF64, Int32.neg_one_and, Int32.zero_or, Int32.zero_xor] at same
      exact (asI32_eq_iff y).mp same
  | shl =>
      have same := (same_i32AsF64_iff _ _).mp (pushes_pushInt_iff.mp pushes)
      simp only [BinaryInstr.onNumbers, BinaryInstr.leftProbe, Json.asI32_i32AsF64,
        floatToInt32_i32AsF64, shlI32, isClamped, isReduced] at same
      exact sameCount (injective.1 same)
  | shr =>
      have same := (same_i32AsF64_iff _ _).mp (pushes_pushInt_iff.mp pushes)
      simp only [BinaryInstr.onNumbers, BinaryInstr.leftProbe, Json.asI32_i32AsF64,
        floatToInt32_i32AsF64, shrI32, isClamped, isReduced] at same
      exact sameCount (injective.2.1 same)
  | uShr =>
      have same := ((pushes_unsigned_iff ctx _ _).mp pushes).1
      simp only [BinaryInstr.leftProbe, isUnsigned, floatToUint32_i32AsF64, shrU32, isClamped,
        isReduced] at same
      exact sameCount (injective.2.2 same)

end Heap

/-! ## All instructions -/

/-- The integers for which an instruction gives the result of the language. -/
def BinaryInstr.Agrees (a b : Int32) : BinaryInstr → Prop
  | .mul => ¬(a.toInt * b.toInt = 0 ∧ (a.toInt < 0 ∨ b.toInt < 0))
  | .div => ¬(a = Int32.minValue ∧ b = -1) ∧ ¬(a.toInt = 0 ∧ b.toInt < 0)
  | .mod => b = 0 ∨ ¬(a.toInt < 0 ∧ b.toInt ∣ a.toInt)
  | .uShr => ¬(a.toInt < 0 ∧ b.toInt % 32 = 0)
  | _ => True

/-- The numbers for which an instruction gives the result of the language. -/
def UnaryInstr.Agrees (a : Int32) : UnaryInstr → Prop
  | .neg => a.toInt ≠ 0
  | .bitNot => True

/-- An instruction with one operand, on a number that is not inline. -/
theorem pushes_vmBitNot_iff (conversions : Conversions) {ctx : Context} {address : ℕ} {x : F64}
    (stored : ctx.heap address = some (.float x)) :
    Pushes ctx (vmBitNot conversions ctx (.ptr address)) (UnaryInstr.bitNot.result x) ↔
      ReducedI32 x := by
  have isNumber := Context.jsToNumber_of_float conversions stored
  have isNot : vmBitNot conversions ctx (.ptr address) = pushInt ctx (~~~(asI32 x)) := by
    simp only [vmBitNot, withNumber, isNumber]
  rw [isNot, pushes_pushInt_iff, UnaryInstr.result, same_i32AsF64_iff, Int32.not_inj, asI32_eq_iff]

theorem pushes_binary_iff (conversions : Conversions) (ctx : Context) (a b : Int32)
    (op : BinaryInstr) :
    Pushes ctx (op.exec conversions ctx (.int a) (.int b))
        (op.result (i32AsF64 a) (i32AsF64 b)) ↔
      op.Agrees a b := by
  have onBits (value : Int32) :
      Pushes ctx (pushInt ctx value) (i32AsF64 value) :=
    pushes_pushInt_iff.mpr (.refl _)
  cases op with
  | add => exact iff_of_true (pushes_vmAdd conversions ctx a b) trivial
  | sub => exact iff_of_true (pushes_vmSub conversions ctx a b) trivial
  | mul => exact pushes_vmMul_iff conversions ctx a b
  | div => exact pushes_vmDiv_iff conversions ctx a b
  | mod => exact pushes_vmMod_iff conversions ctx a b
  | uShr => exact pushes_vmUShr_iff conversions ctx a b
  | bitAnd | bitOr | bitXor | shl | shr =>
      refine iff_of_true ?_ trivial
      simp only [BinaryInstr.result, floatToInt32_i32AsF64, floatToUint32_i32AsF64]
      exact onBits _

theorem pushes_unary_iff (conversions : Conversions) (ctx : Context) (a : Int32)
    (op : UnaryInstr) :
    Pushes ctx (op.exec conversions ctx (.int a)) (op.result (i32AsF64 a)) ↔ op.Agrees a := by
  cases op with
  | neg => exact pushes_vmNeg_iff conversions ctx a
  | bitNot =>
      refine iff_of_true ?_ trivial
      simp only [UnaryInstr.result, floatToInt32_i32AsF64]
      exact pushes_pushInt_iff.mpr (.refl _)

/-- On integers, each instruction pushes the result of the language exactly for the
integers that it agrees on.  On numbers that are not inline, an instruction on bits does
so with every operand that is reduced on the other side, exactly if the number is
reduced too. -/
theorem instructions_agree_iff (conversions : Conversions) (ctx : Context) :
    (∀ (op : BinaryInstr) (a b : Int32),
      Pushes ctx (op.exec conversions ctx (.int a) (.int b))
          (op.result (i32AsF64 a) (i32AsF64 b)) ↔ op.Agrees a b) ∧
    (∀ (op : UnaryInstr) (a : Int32),
      Pushes ctx (op.exec conversions ctx (.int a)) (op.result (i32AsF64 a)) ↔ op.Agrees a) ∧
    (∀ (op : BinaryInstr) (address : ℕ) (x : F64), op.isBits = true →
      ctx.heap address = some (.float x) →
      ((∀ right y, ctx.numberOf right = some y → op.RightReduced y →
        Pushes ctx (op.exec conversions ctx (.ptr address) right) (op.result x y)) ↔
          op.LeftReduced x)) ∧
    (∀ (op : BinaryInstr) (address : ℕ) (y : F64), op.isBits = true →
      ctx.heap address = some (.float y) →
      ((∀ left x, ctx.numberOf left = some x → op.LeftReduced x →
        Pushes ctx (op.exec conversions ctx left (.ptr address)) (op.result x y)) ↔
          op.RightReduced y)) ∧
    ∀ (address : ℕ) (x : F64), ctx.heap address = some (.float x) →
      (Pushes ctx (UnaryInstr.bitNot.exec conversions ctx (.ptr address))
          (UnaryInstr.bitNot.result x) ↔ ReducedI32 x) := by
  refine ⟨fun op a b => pushes_binary_iff conversions ctx a b op,
    fun op a => pushes_unary_iff conversions ctx a op, ?_, ?_,
    fun address x stored => pushes_vmBitNot_iff conversions stored⟩
  · intro op address x isBits stored
    constructor
    · intro pushes
      have probe := pushes (.int op.rightProbe) _ rfl (rightReduced_rightProbe op)
      rw [exec_left conversions isBits stored rfl] at probe
      exact leftReduced_of_pushes isBits probe
    · intro left right y isRight reduced
      rw [exec_left conversions isBits stored isRight]
      exact pushes_of_reduced isBits left reduced
  · intro op address y isBits stored
    constructor
    · intro pushes
      have probe := pushes (.int op.leftProbe) _ rfl (leftReduced_leftProbe op)
      rw [exec_right conversions isBits stored rfl] at probe
      exact rightReduced_of_pushes isBits probe
    · intro right left x isLeft reduced
      rw [exec_right conversions isBits stored isLeft]
      exact pushes_of_reduced isBits reduced right

/-- The remainder of the least integer by minus one is a panic. -/
theorem instructions_not_always_agree :
    ¬∀ (conversions : Conversions) (ctx : Context) (op : BinaryInstr) (a b : Int32),
      Pushes ctx (op.exec conversions ctx (.int a) (.int b))
        (op.result (i32AsF64 a) (i32AsF64 b)) := by
  intro always
  have conversions : Conversions := ⟨fun _ ctx val => (val, ctx), fun _ => false, fun _ => []⟩
  have pushes := always conversions (Context.new 0) .mod Int32.minValue (-1)
  have isPanic : BinaryInstr.mod.exec conversions (Context.new 0) (.int Int32.minValue)
      (.int (-1)) = none := rfl
  rw [isPanic] at pushes
  exact not_pushes_none _ _ pushes

/-! ## Steps of the machine -/

/-- A host that computes what the instructions do. -/
structure Host.Computes (host : Host) (conversions : Conversions) : Prop where
  binary : ∀ (op : BinaryInstr) (ctx : Context) (a b : JSValue) (outcome : Computed × Context),
    op.exec conversions ctx a b = some outcome → host.binary op.opCode ctx a b = outcome

/-- A step of the machine leaves the number on the stack that the instruction pushes. -/
theorem VmState.step_of_pushes
    {host : Host} {conversions : Conversions} (computes : host.Computes conversions)
    {func : BytecodeFunction} {state : VmState} {x y : UInt32} {stack : List JSValue}
    {number : F64} {op : BinaryInstr} {left right : JSValue}
    (isNext : func.code[state.pc]? = some ⟨op.opCode, x, y⟩)
    (isStack : state.stack = right :: left :: stack)
    (pushes : Pushes state.ctx (op.exec conversions state.ctx left right) number) :
    ∃ value after, state.step host func = state.goOn (value :: stack) after ∧
      (after.Denotes value number ∨ value = .exception ∧ state.ctx.allocFloat number = none) := by
  obtain ⟨value, after, isPushed, denotes⟩ := pushes
  have isComputed := computes.binary op state.ctx left right _ isPushed
  refine ⟨value, after, ?_, denotes⟩
  have isExec : state.step host func =
      state.pushComputed stack (host.binary op.opCode state.ctx left right) := by
    rw [VmState.step, isNext]
    cases op <;> simp only [BinaryInstr.opCode, Instruction.exec, VmState.pop₂, isStack]
  rw [isExec, isComputed]
  rfl

end Script
end MuonJs
