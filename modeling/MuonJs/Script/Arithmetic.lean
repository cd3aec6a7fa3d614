import MuonJs.Script.Conversions
import MuonJs.Script.Vm

/-!
# Arithmetic instructions

The arithmetic and the bit instructions of the machine, on integers and on other
values, and the results that doubles have.  The two agree for all integers but a few:
where the result is a zero with a minus sign, where the remainder of the least integer
by minus one is computed, and where an unsigned shift leaves the sign bit.
-/

namespace MuonJs
namespace Script

open Cache (Bytes F64 asBytes)

/-! ## Conversions of doubles -/

/-- `float_to_uint32`. -/
def floatToUint32 (number : F64) : UInt32 :=
  if number.isNan ∨ number.isInfinite ∨ number.isZero then 0
  else UInt32.ofNat (number.truncate % 2 ^ 32).toNat

/-- `float_to_int32`. -/
def floatToInt32 (number : F64) : Int32 := (floatToUint32 number).toInt32

/-- `f64 as u32`: truncated, and kept in range. -/
def asU32 (number : F64) : UInt32 :=
  if number.isNan then 0
  else UInt32.ofNat (max 0 (min (2 ^ 32 - 1) number.truncate)).toNat

/-! ## Integers -/

/-- An integer that fits into 32 bits. -/
def toI32 (number : ℤ) : Option Int32 :=
  if -2 ^ 31 ≤ number ∧ number < 2 ^ 31 then some (Int32.ofInt number) else none

/-- `i32::checked_add`. -/
def checkedAdd (a b : Int32) : Option Int32 := toI32 (a.toInt + b.toInt)

/-- `i32::checked_sub`. -/
def checkedSub (a b : Int32) : Option Int32 := toI32 (a.toInt - b.toInt)

/-- `%` of `i32`; none is a panic. -/
def checkedRem (a b : Int32) : Option Int32 :=
  if b = 0 ∨ (a = Int32.minValue ∧ b = -1) then none else some (a % b)

/-- `<<` by the low bits of a count. -/
def shlI32 (value : Int32) (count : UInt32) : Int32 := value <<< (count &&& 31).toInt32

/-- `>>` of a signed integer by the low bits of a count. -/
def shrI32 (value : Int32) (count : UInt32) : Int32 := value >>> (count &&& 31).toInt32

/-- `>>` of an unsigned integer by the low bits of a count. -/
def shrU32 (value count : UInt32) : UInt32 := value >>> (count &&& 31)

/-! ## Instructions -/

/-- What an instruction does; none is a panic. -/
abbrev Effect := Option (Computed × Context)

section Instructions

variable (conversions : Conversions) (ctx : Context)

/-- Push an integer. -/
def pushInt (ctx : Context) (value : Int32) : Effect := some (.value (.int value), ctx)

/-- Push what `number_to_value` makes of a number. -/
def pushNumber (ctx : Context) (number : F64) : Effect :=
  some (.value (ctx.numberToValue number).1, (ctx.numberToValue number).2)

/-- Push an integer that fits, and do something else where none does. -/
def pushFitting (ctx : Context) (fitting : Option Int32) (other : Effect) : Effect :=
  match fitting with
  | some result => pushInt ctx result
  | none => other

/-- Go on with the number of a value; an exception ends the run. -/
def withNumber (val : JSValue) (go : F64 → Context → Effect) : Effect :=
  match ctx.jsToNumber conversions val with
  | (none, ctx) => some (.error .exception, ctx)
  | (some number, ctx) => go number ctx

/-- Go on with the numbers of two values. -/
def withNumbers (a b : JSValue) (go : F64 → F64 → Context → Effect) : Effect :=
  withNumber conversions ctx a fun an ctx => withNumber conversions ctx b fun bn ctx => go an bn ctx

/-- An instruction on numbers, with a path of its own for integers. -/
def numeric (onInts : Int32 → Int32 → Effect) (onNumbers : F64 → F64 → F64) (a b : JSValue) :
    Effect :=
  match a, b with
  | .int ai, .int bi => onInts ai bi
  | a, b => withNumbers conversions ctx a b fun an bn ctx => pushNumber ctx (onNumbers an bn)

/-- An instruction on bits. -/
def bitwise (onInts : Int32 → Int32 → Int32) (onNumbers : F64 → F64 → Int32) (a b : JSValue) :
    Effect :=
  match a, b with
  | .int ai, .int bi => pushInt ctx (onInts ai bi)
  | a, b => withNumbers conversions ctx a b fun an bn ctx => pushInt ctx (onNumbers an bn)

/-- `OpCode::Add`. -/
def vmAdd (a b : JSValue) : Effect :=
  match a, b with
  | .int ai, .int bi =>
      pushFitting ctx (checkedAdd ai bi)
        (pushNumber ctx (F64.add (i32AsF64 ai) (i32AsF64 bi)))
  | a, b =>
      match ctx.stringBytes a, b with
      | some text, .int n =>
          match ctx.allocString (text ++ Json.i32Bytes n) with
          | some (address, ctx) => some (.value (.ptr address), ctx)
          | none => some (.outOfMemory, ctx)
      | isText, b =>
          if isText.isSome ∨ (ctx.stringBytes b).isSome then
            let (ls, ctx) := ctx.jsToString conversions a
            let (rs, ctx) := ctx.jsToString conversions b
            let (result, ctx) :=
              ctx.newString ((ctx.stringBytes ls).getD [] ++ (ctx.stringBytes rs).getD [])
            some (.value result, ctx)
          else
            withNumbers conversions ctx a b fun an bn ctx => pushNumber ctx (F64.add an bn)

/-- `OpCode::Sub`. -/
def vmSub : JSValue → JSValue → Effect :=
  numeric conversions ctx
    (fun ai bi =>
      pushFitting ctx (checkedSub ai bi)
        (pushNumber ctx (F64.sub (i32AsF64 ai) (i32AsF64 bi))))
    F64.sub

/-- `OpCode::Mul`. -/
def vmMul : JSValue → JSValue → Effect :=
  numeric conversions ctx
    (fun ai bi =>
      pushFitting ctx (toI32 (ai.toInt * bi.toInt))
        (pushNumber ctx (F64.ofInt (ai.toInt * bi.toInt))))
    F64.mul

/-- `OpCode::Div`. -/
def vmDiv : JSValue → JSValue → Effect :=
  numeric conversions ctx
    (fun ai bi =>
      if bi ≠ 0 then
        (checkedRem ai bi).bind fun rest =>
          if rest = 0 then pushInt ctx (ai / bi)
          else pushNumber ctx (F64.div (i32AsF64 ai) (i32AsF64 bi))
      else pushNumber ctx (F64.div (i32AsF64 ai) (i32AsF64 bi)))
    F64.div

/-- `OpCode::Mod`. -/
def vmMod : JSValue → JSValue → Effect :=
  numeric conversions ctx
    (fun ai bi =>
      if bi ≠ 0 then (checkedRem ai bi).bind (pushInt ctx) else pushNumber ctx .nan)
    F64.rem

/-- `OpCode::Neg`. -/
def vmNeg (v : JSValue) : Effect :=
  match v with
  | .int n =>
      if n = Int32.minValue then pushNumber ctx (i32AsF64 n).neg else pushInt ctx (-n)
  | v => withNumber conversions ctx v fun n ctx => pushNumber ctx n.neg

/-- `OpCode::BitAnd`. -/
def vmBitAnd : JSValue → JSValue → Effect :=
  bitwise conversions ctx (· &&& ·) fun an bn => asI32 an &&& asI32 bn

/-- `OpCode::BitOr`. -/
def vmBitOr : JSValue → JSValue → Effect :=
  bitwise conversions ctx (· ||| ·) fun an bn => asI32 an ||| asI32 bn

/-- `OpCode::BitXor`. -/
def vmBitXor : JSValue → JSValue → Effect :=
  bitwise conversions ctx (· ^^^ ·) fun an bn => asI32 an ^^^ asI32 bn

/-- `OpCode::Shl`. -/
def vmShl : JSValue → JSValue → Effect :=
  bitwise conversions ctx (fun ai bi => shlI32 ai bi.toUInt32)
    fun an bn => shlI32 (asI32 an) (asU32 bn)

/-- `OpCode::Shr`. -/
def vmShr : JSValue → JSValue → Effect :=
  bitwise conversions ctx (fun ai bi => shrI32 ai bi.toUInt32)
    fun an bn => shrI32 (asI32 an) (asU32 bn)

/-- `OpCode::UShr`. -/
def vmUShr : JSValue → JSValue → Effect :=
  bitwise conversions ctx (fun ai bi => (shrU32 ai.toUInt32 bi.toUInt32).toInt32)
    fun an bn => (shrU32 (asU32 an) (asU32 bn)).toInt32

/-- `OpCode::BitNot`. -/
def vmBitNot (v : JSValue) : Effect :=
  match v with
  | .int n => pushInt ctx (~~~n)
  | v => withNumber conversions ctx v fun n ctx => pushInt ctx (~~~(asI32 n))

end Instructions

/-! ## The results of the language -/

/-- The instructions with two operands. -/
inductive BinaryInstr
  | add | sub | mul | div | mod | bitAnd | bitOr | bitXor | shl | shr | uShr

/-- The instructions with one operand. -/
inductive UnaryInstr
  | neg | bitNot

namespace BinaryInstr

/-- The instruction of an operation. -/
def opCode : BinaryInstr → OpCode
  | .add => .add
  | .sub => .sub
  | .mul => .mul
  | .div => .div
  | .mod => .mod
  | .bitAnd => .bitAnd
  | .bitOr => .bitOr
  | .bitXor => .bitXor
  | .shl => .shl
  | .shr => .shr
  | .uShr => .uShr

/-- What the machine does. -/
def exec (conversions : Conversions) (ctx : Context) : BinaryInstr → JSValue → JSValue → Effect
  | .add => vmAdd conversions ctx
  | .sub => vmSub conversions ctx
  | .mul => vmMul conversions ctx
  | .div => vmDiv conversions ctx
  | .mod => vmMod conversions ctx
  | .bitAnd => vmBitAnd conversions ctx
  | .bitOr => vmBitOr conversions ctx
  | .bitXor => vmBitXor conversions ctx
  | .shl => vmShl conversions ctx
  | .shr => vmShr conversions ctx
  | .uShr => vmUShr conversions ctx

/-- The result for two numbers: arithmetic is exact and then rounded, operations on bits
reduce their operands modulo `2 ^ 32`. -/
def result : BinaryInstr → F64 → F64 → F64
  | .add => F64.add
  | .sub => F64.sub
  | .mul => F64.mul
  | .div => F64.div
  | .mod => F64.rem
  | .bitAnd => fun x y => i32AsF64 (floatToInt32 x &&& floatToInt32 y)
  | .bitOr => fun x y => i32AsF64 (floatToInt32 x ||| floatToInt32 y)
  | .bitXor => fun x y => i32AsF64 (floatToInt32 x ^^^ floatToInt32 y)
  | .shl => fun x y => i32AsF64 (shlI32 (floatToInt32 x) (floatToUint32 y))
  | .shr => fun x y => i32AsF64 (shrI32 (floatToInt32 x) (floatToUint32 y))
  | .uShr => fun x y => F64.ofInt (shrU32 (floatToUint32 x) (floatToUint32 y)).toNat

end BinaryInstr

namespace UnaryInstr

/-- What the machine does. -/
def exec (conversions : Conversions) (ctx : Context) : UnaryInstr → JSValue → Effect
  | .neg => vmNeg conversions ctx
  | .bitNot => vmBitNot conversions ctx

/-- The result for a number. -/
def result : UnaryInstr → F64 → F64
  | .neg => F64.neg
  | .bitNot => fun x => i32AsF64 (~~~(floatToInt32 x))

end UnaryInstr

/-- A value is a number. -/
def Context.Denotes (ctx : Context) (value : JSValue) (number : F64) : Prop :=
  ∃ held, ctx.numberOf value = some held ∧ F64.Same held number

/-- An instruction pushes a number, or an exception where there is no memory for it. -/
def Pushes (ctx : Context) (effect : Effect) (number : F64) : Prop :=
  ∃ value after, effect = some (.value value, after) ∧
    (after.Denotes value number ∨ value = .exception ∧ ctx.allocFloat number = none)

/-! ## Numbers that are pushed -/

theorem key_eq (number : F64) :
    number.key = if number.isNegative then -(number.magnitude : ℤ) else number.magnitude := by
  rw [F64.key, F64.isNegative]
  by_cases small : number.bits.toNat < 2 ^ 63
  · rw [if_pos small, decide_eq_false (not_le.mpr small), if_neg Bool.false_ne_true]
  · rw [if_neg small, decide_eq_true (not_lt.mp small), if_pos rfl]

theorem keys_of_partialCmp {left right : F64} (isEqual : left.partialCmp right = some .eq) :
    left.key = right.key := by
  unfold F64.partialCmp at isEqual
  split at isEqual
  case isTrue => cases isEqual
  case isFalse => exact compare_eq_iff_eq.mp (Option.some.inj isEqual)

/-- Doubles that compare equal are the same, apart from the sign of zero. -/
theorem eq_of_partialCmp {left right : F64} (isEqual : left.partialCmp right = some .eq)
    (notZero : left.key ≠ 0 ∨ left.isNegative = right.isNegative) : left = right := by
  have keys := keys_of_partialCmp isEqual
  rw [key_eq] at notZero
  rw [key_eq, key_eq] at keys
  rw [F64.ext_iff]
  cases leftSign : left.isNegative <;> cases rightSign : right.isNegative <;>
    simp only [leftSign, rightSign, if_true, Bool.false_eq_true, Bool.true_eq_false, if_false,
      or_false, ne_eq] at keys notZero <;>
    refine ⟨?_, ?_⟩ <;> first | rfl | omega

/-- The test of `number_to_value`: the double is an integer of 32 bits, and no negative
zero. -/
theorem i32AsF64_asI32 {number : F64}
    (isInt : (i32AsF64 (asI32 number)).partialCmp number = some .eq ∧
      (number.key ≠ 0 ∨ number.bits.toNat < 2 ^ 63)) : i32AsF64 (asI32 number) = number := by
  refine eq_of_partialCmp isInt.1 ?_
  by_cases negative : (i32AsF64 (asI32 number)).isNegative = true
  · have isZero := F64.isZero_i32AsF64 (asI32 number)
    have isLess := negative
    rw [F64.isNegative_i32AsF64, decide_eq_true_iff] at isLess
    rw [F64.isZero, decide_eq_false (isLess.ne), decide_eq_false_iff_not] at isZero
    rw [key_eq, negative, if_pos rfl]
    exact .inl (by omega)
  · obtain nonzero | positive := isInt.2
    · rw [keys_of_partialCmp isInt.1]
      exact .inl nonzero
    · rw [Bool.eq_false_iff.mpr negative, F64.isNegative, decide_eq_false (not_le.mpr positive)]
      exact .inr rfl

theorem Context.Denotes.of_int {ctx : Context} {value : Int32} {number : F64}
    (same : F64.Same (i32AsF64 value) number) : ctx.Denotes (.int value) number :=
  ⟨_, rfl, same⟩

/-- `number_to_value` makes a value that is the number. -/
theorem pushes_pushNumber (ctx : Context) (number : F64) :
    Pushes ctx (pushNumber ctx number) number := by
  refine ⟨_, _, rfl, ?_⟩
  unfold Context.numberToValue
  split
  case isTrue isInt =>
    exact .inl (.of_int (.inl (i32AsF64_asI32 isInt)))
  case isFalse =>
    unfold Context.newFloat64
    cases allocated : ctx.allocFloat number with
    | none => exact .inr ⟨rfl, rfl⟩
    | some pair =>
        obtain ⟨address, after⟩ := pair
        refine .inl ⟨number, ?_, .refl number⟩
        obtain ⟨⟨address', mem⟩, -, isPair⟩ := Option.map_eq_some_iff.mp allocated
        cases isPair
        simp only [Context.numberOf, Context.floatValue, Function.update_self]

/-- An integer is pushed as itself. -/
theorem pushes_pushInt_iff {ctx : Context} {value : Int32} {number : F64} :
    Pushes ctx (pushInt ctx value) number ↔ F64.Same (i32AsF64 value) number := by
  constructor
  · rintro ⟨pushed, after, isPushed, denotes | ⟨rfl, -⟩⟩
    · cases isPushed
      obtain ⟨held, isHeld, same⟩ := denotes
      cases isHeld
      exact same
    · cases isPushed
  · exact fun same => ⟨_, _, rfl, .inl (.of_int same)⟩

theorem not_pushes_none (ctx : Context) (number : F64) : ¬Pushes ctx none number := by
  rintro ⟨value, after, isPushed, -⟩
  cases isPushed

/-! ## Integers -/

theorem i32AsF64_ofInt {number : ℤ} (low : -2 ^ 31 ≤ number) (high : number < 2 ^ 31) :
    i32AsF64 (Int32.ofInt number) = F64.ofInt number := by
  rw [← F64.ofInt_toInt, Int32.toInt_ofInt_of_le low high]

/-- A number that fits is pushed as an integer, and any other as a double. -/
theorem pushes_toI32 (ctx : Context) {number : ℤ} {effect : Effect}
    (onOther : Pushes ctx effect (F64.ofInt number)) :
    Pushes ctx (pushFitting ctx (toI32 number) effect) (F64.ofInt number) := by
  unfold pushFitting toI32
  split
  case h_1 result isSome =>
    split at isSome
    case isTrue inRange =>
      cases isSome
      exact pushes_pushInt_iff.mpr (.inl (i32AsF64_ofInt inRange.1 inRange.2))
    case isFalse => cases isSome
  case h_2 => exact onOther

section Int32

variable (conversions : Conversions) (ctx : Context) (a b : Int32)

theorem pushes_vmAdd :
    Pushes ctx (vmAdd conversions ctx (.int a) (.int b)) (F64.add (i32AsF64 a) (i32AsF64 b)) := by
  have onOther := pushes_pushNumber ctx (F64.add (i32AsF64 a) (i32AsF64 b))
  have isAdd : vmAdd conversions ctx (.int a) (.int b) =
      pushFitting ctx (toI32 (a.toInt + b.toInt))
        (pushNumber ctx (F64.add (i32AsF64 a) (i32AsF64 b))) := rfl
  rw [isAdd]
  rw [F64.add_i32AsF64] at onOther ⊢
  exact pushes_toI32 ctx onOther

theorem pushes_vmSub :
    Pushes ctx (vmSub conversions ctx (.int a) (.int b)) (F64.sub (i32AsF64 a) (i32AsF64 b)) := by
  have onOther := pushes_pushNumber ctx (F64.sub (i32AsF64 a) (i32AsF64 b))
  have isSub : vmSub conversions ctx (.int a) (.int b) =
      pushFitting ctx (toI32 (a.toInt - b.toInt))
        (pushNumber ctx (F64.sub (i32AsF64 a) (i32AsF64 b))) := rfl
  rw [isSub]
  rw [F64.sub_i32AsF64] at onOther ⊢
  exact pushes_toI32 ctx onOther

/-- A zero without a sign is pushed, and one with a sign is not. -/
theorem pushes_zero_iff (negative : Bool) :
    Pushes ctx (pushInt ctx 0) (F64.signedZero negative) ↔ negative = false := by
  rw [pushes_pushInt_iff]
  cases negative with
  | true =>
      refine iff_of_false ?_ (by decide)
      rintro (same | isNan)
      · revert same
        decide +kernel
      · revert isNan
        decide +kernel
  | false => exact iff_of_true (.inl (by decide +kernel)) rfl

theorem pushes_vmMul_iff :
    Pushes ctx (vmMul conversions ctx (.int a) (.int b)) (F64.mul (i32AsF64 a) (i32AsF64 b)) ↔
      ¬(a.toInt * b.toInt = 0 ∧ (a.toInt < 0 ∨ b.toInt < 0)) := by
  have isMul : vmMul conversions ctx (.int a) (.int b) =
      pushFitting ctx (toI32 (a.toInt * b.toInt))
        (pushNumber ctx (F64.ofInt (a.toInt * b.toInt))) := rfl
  rw [isMul, F64.mul_i32AsF64]
  by_cases isZero : a.toInt * b.toInt = 0
  · have isPushed : pushFitting ctx (toI32 (a.toInt * b.toInt))
        (pushNumber ctx (F64.ofInt (a.toInt * b.toInt))) = pushInt ctx 0 := by
      rw [isZero]
      rfl
    rw [isPushed, if_pos isZero, pushes_zero_iff, bne_eq_false_iff_eq, decide_eq_decide]
    obtain leftZero | rightZero := Int.mul_eq_zero.mp isZero <;> omega
  · rw [if_neg isZero]
    exact iff_of_true (pushes_toI32 ctx (pushes_pushNumber ctx _)) fun isSigned =>
      isZero isSigned.1

/-- The remainder panics for zero, and for the least integer by minus one. -/
theorem checkedRem_eq (nonzero : b ≠ 0) :
    checkedRem a b = if a = Int32.minValue ∧ b = -1 then none else some (a % b) := by
  unfold checkedRem
  by_cases panics : a = Int32.minValue ∧ b = -1
  · rw [if_pos (.inr panics), if_pos panics]
  · rw [if_neg (not_or.mpr ⟨nonzero, panics⟩), if_neg panics]

theorem toInt_div {a b : Int32} (inRange : ¬(a = Int32.minValue ∧ b = -1)) :
    (a / b).toInt = a.toInt.tdiv b.toInt := by
  by_cases isLeast : a = Int32.minValue
  · exact Int32.toInt_div_of_ne_right a b fun isMinusOne => inRange ⟨isLeast, isMinusOne⟩
  · exact Int32.toInt_div_of_ne_left a b isLeast

theorem toInt_ne_zero {b : Int32} (nonzero : b ≠ 0) : b.toInt ≠ 0 :=
  fun isZero => nonzero (Int32.toInt_inj.mp isZero)

theorem pushes_vmDiv_iff :
    Pushes ctx (vmDiv conversions ctx (.int a) (.int b)) (F64.div (i32AsF64 a) (i32AsF64 b)) ↔
      ¬(a = Int32.minValue ∧ b = -1) ∧ ¬(a.toInt = 0 ∧ b.toInt < 0) := by
  have isDiv : vmDiv conversions ctx (.int a) (.int b) =
      if b ≠ 0 then
        (checkedRem a b).bind fun rest =>
          if rest = 0 then pushInt ctx (a / b)
          else pushNumber ctx (F64.div (i32AsF64 a) (i32AsF64 b))
      else pushNumber ctx (F64.div (i32AsF64 a) (i32AsF64 b)) := rfl
  rw [isDiv]
  by_cases nonzero : b ≠ 0
  · rw [if_pos nonzero, checkedRem_eq a b nonzero]
    by_cases panics : a = Int32.minValue ∧ b = -1
    · rw [if_pos panics]
      exact iff_of_false (not_pushes_none ctx _) fun inRange => inRange.1 panics
    · rw [if_neg panics, Option.bind_some]
      by_cases divides : a % b = 0
      · have isMultiple : b.toInt ∣ a.toInt := by
          rw [Int.dvd_iff_tmod_eq_zero, ← Int32.toInt_mod, divides]
          rfl
        rw [if_pos divides, F64.div_i32AsF64 a b (toInt_ne_zero nonzero) isMultiple,
          and_iff_right panics]
        by_cases isZero : a.toInt = 0
        · have isNothing : a / b = 0 := by
            apply Int32.toInt_inj.mp
            rw [toInt_div panics, isZero, Int.zero_tdiv]
            rfl
          rw [if_pos isZero, isNothing, pushes_zero_iff, decide_eq_false_iff_not,
            and_iff_right isZero]
        · rw [if_neg isZero, pushes_pushInt_iff, ← F64.ofInt_toInt, toInt_div panics]
          exact iff_of_true (.refl _) fun isSigned => isZero isSigned.1
      · rw [if_neg divides, and_iff_right panics]
        refine iff_of_true (pushes_pushNumber ctx _) fun isSigned => divides ?_
        rw [Int32.toInt_inj.mp (show a.toInt = (0 : Int32).toInt from isSigned.1)]
        apply Int32.toInt_inj.mp
        rw [Int32.toInt_mod]
        exact Int.zero_tmod _
  · rw [if_neg nonzero]
    refine iff_of_true (pushes_pushNumber ctx _) ⟨?_, ?_⟩
    · rintro ⟨-, rfl⟩
      exact nonzero (by decide)
    · rintro ⟨-, isNegative⟩
      rw [not_ne_iff.mp nonzero] at isNegative
      exact absurd isNegative (by decide)

theorem pushes_vmMod_iff :
    Pushes ctx (vmMod conversions ctx (.int a) (.int b)) (F64.rem (i32AsF64 a) (i32AsF64 b)) ↔
      b = 0 ∨ ¬(a.toInt < 0 ∧ b.toInt ∣ a.toInt) := by
  have isMod : vmMod conversions ctx (.int a) (.int b) =
      if b ≠ 0 then (checkedRem a b).bind (pushInt ctx) else pushNumber ctx .nan := rfl
  rw [isMod]
  by_cases nonzero : b ≠ 0
  · rw [if_pos nonzero, checkedRem_eq a b nonzero, or_iff_right nonzero]
    by_cases panics : a = Int32.minValue ∧ b = -1
    · rw [if_pos panics]
      refine iff_of_false (not_pushes_none ctx _) fun inRange => inRange ?_
      rw [panics.1, panics.2]
      decide
    · rw [if_neg panics, Option.bind_some, F64.rem_i32AsF64 a b (toInt_ne_zero nonzero),
        Int.dvd_iff_tmod_eq_zero]
      by_cases isZero : a.toInt.tmod b.toInt = 0
      · have isNothing : a % b = 0 := by
          apply Int32.toInt_inj.mp
          rw [Int32.toInt_mod, isZero]
          rfl
        rw [if_pos isZero, isNothing, pushes_zero_iff, decide_eq_false_iff_not, and_iff_left isZero]
      · rw [if_neg isZero, pushes_pushInt_iff, ← F64.ofInt_toInt, Int32.toInt_mod]
        exact iff_of_true (.refl _) fun isSigned => isZero isSigned.2
  · have isNan : F64.rem (i32AsF64 a) (i32AsF64 b) = .nan := by
      rw [not_ne_iff.mp nonzero, F64.rem, F64.isNan_i32AsF64, F64.isNan_i32AsF64,
        F64.isZero_i32AsF64, F64.isInfinite_i32AsF64]
      rfl
    rw [if_neg nonzero, isNan]
    exact iff_of_true (pushes_pushNumber ctx _) (.inl (not_ne_iff.mp nonzero))

theorem pushes_vmNeg_iff :
    Pushes ctx (vmNeg conversions ctx (.int a)) (F64.neg (i32AsF64 a)) ↔ a.toInt ≠ 0 := by
  have isNeg : vmNeg conversions ctx (.int a) =
      if a = Int32.minValue then pushNumber ctx (i32AsF64 a).neg else pushInt ctx (-a) := rfl
  rw [isNeg]
  by_cases isLeast : a = Int32.minValue
  · rw [if_pos isLeast]
    refine iff_of_true (pushes_pushNumber ctx _) ?_
    rw [isLeast]
    decide
  · have isNegated : (-a).toInt = -a.toInt := by
      have atLeast := Int32.le_toInt a
      have lessThan := Int32.toInt_lt a
      have notLeast : a.toInt ≠ -2 ^ 31 := fun same => isLeast (Int32.toInt_inj.mp same)
      rw [Int32.toInt_neg, Int.bmod_eq_of_le] <;> omega
    rw [if_neg isLeast, F64.neg_i32AsF64]
    by_cases isZero : a.toInt = 0
    · have isNothing : -a = 0 := Int32.toInt_inj.mp (by rw [isNegated, isZero]; rfl)
      rw [if_pos isZero, isNothing, pushes_zero_iff]
      exact iff_of_false (by decide) fun nonzero => nonzero isZero
    · rw [if_neg isZero, pushes_pushInt_iff, ← F64.ofInt_toInt, isNegated]
      exact iff_of_true (.refl _) isZero

/-! ## Bits -/

theorem toInt_toInt32 (value : UInt32) :
    value.toInt32.toInt = if value.toNat < 2 ^ 31 then (value.toNat : ℤ) else value.toNat - 2 ^ 32 := by
  change value.toBitVec.toInt = _
  rw [BitVec.toInt_eq_toNat_cond]
  change (if 2 * value.toNat < 2 ^ 32 then (value.toNat : ℤ) else value.toNat - (2 ^ 32 : ℕ)) = _
  split <;> split <;> omega

theorem toNat_toUInt32 (value : Int32) : value.toUInt32.toNat = (value.toInt % 2 ^ 32).toNat := by
  have isInt := toInt_toInt32 value.toUInt32
  rw [show value.toUInt32.toInt32 = value from rfl] at isInt
  have inRange := value.toUInt32.toNat_lt
  split at isInt <;> omega

/-- The reduction of a finite number. -/
theorem toNat_floatToUint32 (number : F64) :
    (floatToUint32 number).toNat =
      if number.isNan = true ∨ number.isInfinite = true then 0
      else (number.truncate % 2 ^ 32).toNat := by
  have inRange : (number.truncate % 2 ^ 32).toNat < 2 ^ 32 := by
    omega
  have isSmall : (UInt32.ofNat (number.truncate % 2 ^ 32).toNat).toNat =
      (number.truncate % 2 ^ 32).toNat := UInt32.toNat_ofNat_of_lt' inRange
  unfold floatToUint32
  by_cases special : number.isNan = true ∨ number.isInfinite = true
  · rw [if_pos special, if_pos (special.imp_right .inl)]
    rfl
  · rw [if_neg special]
    by_cases isZero : number.isZero = true
    · have isNothing : number.truncate = 0 := by
        rw [F64.isZero, decide_eq_true_iff] at isZero
        have isLow : ¬1075 ≤ 0 := by
          decide
        rw [F64.truncate, F64.significand, isZero, Nat.zero_mod, Nat.zero_div, if_pos rfl,
          if_neg isLow, Nat.add_zero, Nat.zero_div]
        cases number.isNegative <;> rfl
      rw [if_pos (.inr (.inr isZero)), isNothing]
      rfl
    · rw [if_neg (not_or.mpr ⟨fun isNan => special (.inl isNan),
        not_or.mpr ⟨fun isInfinite => special (.inr isInfinite), isZero⟩⟩), isSmall]

theorem floatToUint32_i32AsF64 : floatToUint32 (i32AsF64 a) = a.toUInt32 := by
  apply UInt32.toNat_inj.mp
  rw [toNat_floatToUint32, F64.isNan_i32AsF64, F64.isInfinite_i32AsF64,
    if_neg (by decide), F64.truncate_i32AsF64, toNat_toUInt32]

theorem floatToInt32_i32AsF64 : floatToInt32 (i32AsF64 a) = a := by
  rw [floatToInt32, floatToUint32_i32AsF64]
  rfl

theorem same_i32AsF64_iff : F64.Same (i32AsF64 a) (i32AsF64 b) ↔ a = b := by
  constructor
  · rintro (same | isNan)
    · rw [← Json.asI32_i32AsF64 a, same, Json.asI32_i32AsF64]
    · rw [F64.isNan_i32AsF64] at isNan
      cases isNan.1
  · rintro rfl
    exact .refl _

theorem truncate_ofInt_toNat (value : UInt32) : (F64.ofInt value.toNat).truncate = value.toNat := by
  have small : value.toNat < 2 ^ 52 := value.toNat_lt.trans (by decide)
  have notNegative : ¬(value.toNat : ℤ) < 0 := by omega
  rw [F64.ofInt, Int.natAbs_natCast, F64.truncate_ofMagnitude_roundRatio small,
    decide_eq_false notNegative, if_neg Bool.false_ne_true]

/-- An unsigned result is right when its sign bit is not set. -/
theorem pushes_unsigned_iff (value number : UInt32) :
    Pushes ctx (pushInt ctx value.toInt32) (F64.ofInt number.toNat) ↔
      value = number ∧ value.toNat < 2 ^ 31 := by
  rw [pushes_pushInt_iff, ← UInt32.toNat_inj]
  have isInt := toInt_toInt32 value
  have inRange := value.toNat_lt
  constructor
  · rintro (same | isNan)
    · have isTruncated := congrArg F64.truncate same
      rw [F64.truncate_i32AsF64, truncate_ofInt_toNat, isInt] at isTruncated
      split at isTruncated <;> omega
    · rw [F64.isNan_i32AsF64] at isNan
      cases isNan.1
  · rintro ⟨same, small⟩
    rw [if_pos small, same] at isInt
    rw [← F64.ofInt_toInt, isInt]
    exact .refl _

theorem toNat_and_31 (count : UInt32) : (count &&& 31).toNat = count.toNat % 32 := by
  rw [UInt32.toNat_and]
  exact Nat.and_two_pow_sub_one_eq_mod count.toNat 5

theorem toNat_shrU32 (value count : UInt32) :
    (shrU32 value count).toNat = value.toNat / 2 ^ (count.toNat % 32) := by
  rw [shrU32, UInt32.toNat_shiftRight, toNat_and_31, Nat.mod_mod, Nat.shiftRight_eq_div_pow]

theorem pushes_vmUShr_iff :
    Pushes ctx (vmUShr conversions ctx (.int a) (.int b))
        (BinaryInstr.uShr.result (i32AsF64 a) (i32AsF64 b)) ↔
      ¬(a.toInt < 0 ∧ b.toInt % 32 = 0) := by
  have isUShr : vmUShr conversions ctx (.int a) (.int b) =
      pushInt ctx (shrU32 a.toUInt32 b.toUInt32).toInt32 := rfl
  have isResult : BinaryInstr.uShr.result (i32AsF64 a) (i32AsF64 b) =
      F64.ofInt (shrU32 a.toUInt32 b.toUInt32).toNat := by
    change F64.ofInt (shrU32 (floatToUint32 _) (floatToUint32 _)).toNat = _
    rw [floatToUint32_i32AsF64, floatToUint32_i32AsF64]
  rw [isUShr, isResult, pushes_unsigned_iff, and_iff_right rfl, toNat_shrU32, toNat_toUInt32, toNat_toUInt32]
  have atLeast := Int32.le_toInt a
  have lessThan := Int32.toInt_lt a
  have isCount : (b.toInt % 2 ^ 32).toNat % 32 = (b.toInt % 32).toNat := by
    omega
  rw [isCount]
  by_cases isZero : b.toInt % 32 = 0
  · rw [isZero, Int.toNat_zero, pow_zero, Nat.div_one]
    omega
  · refine iff_of_true ?_ fun isSigned => isZero isSigned.2
    have isPositive : 1 ≤ (b.toInt % 32).toNat := by
      omega
    calc (a.toInt % 2 ^ 32).toNat / 2 ^ (b.toInt % 32).toNat
        ≤ (a.toInt % 2 ^ 32).toNat / 2 ^ 1 :=
          Nat.div_le_div_left (Nat.pow_le_pow_right (by decide) isPositive) (by decide)
      _ < 2 ^ 31 := by omega

end Int32

end Script
end MuonJs
