import MuonJs.Script.Arithmetic
import MuonJs.Script.Walker

/-!
# Truthiness

The constructs that branch on a value, and the predicates they use.  `evals::is_truthy`
is the one of the language; the expression parser takes the empty string for true, and
the statements also take zero and not a number for true where they are not inline.
-/

namespace MuonJs
namespace Script

open Cache (Bytes F64 asBytes)

/-! ## The expression parser -/

namespace ArithParser

variable (ctx : Context)

/-- `ArithParser::is_truthy`. -/
def isTruthy : JSValue → Bool
  | .bool value => value
  | .int n => n ≠ 0
  | .null => false
  | .undefined => false
  | val =>
      match ctx.floatValue val with
      | some number => number.key ≠ 0 && !number.isNan
      | none => true

end ArithParser

/-! ## Constructs -/

/-- The constructs that branch on a value: instructions of the machine, the conditional
expression, operators of the expression parser, and statements. -/
inductive Construct
  | jumpIfFalse | jumpIfTrue | not | and | or
  | conditional
  | logicalAnd | logicalOr | logicalNot
  | ifStatement | whileLoop | doWhileLoop | forLoop

/-- The predicate by which a construct decides. -/
def Construct.decides (ctx : Context) (val : JSValue) : Construct → Bool
  | .jumpIfFalse | .jumpIfTrue | .not | .and | .or | .conditional => ctx.isTruthy val
  | .logicalAnd | .logicalOr | .logicalNot => ArithParser.isTruthy ctx val
  | .ifStatement | .whileLoop | .doWhileLoop | .forLoop => Walker.isTrue val

namespace Context

/-- The values that are false in the language. -/
def IsFalsy (ctx : Context) (val : JSValue) : Prop :=
  val = .undefined ∨ val = .null ∨ val = .bool false ∨
    (∃ number, ctx.numberOf val = some number ∧ (number.isZero = true ∨ number.isNan = true)) ∨
    ctx.stringBytes val = some []

/-- A zero or not a number, and not inline. -/
def IsHeapZeroOrNan (ctx : Context) (val : JSValue) : Prop :=
  ∃ number, ctx.floatValue val = some number ∧ (number.isZero = true ∨ number.isNan = true)

end Context

/-- The values that a construct takes for true although they are false. -/
def Construct.Misses (ctx : Context) (val : JSValue) : Construct → Prop
  | .jumpIfFalse | .jumpIfTrue | .not | .and | .or | .conditional => False
  | .logicalAnd | .logicalOr | .logicalNot => ctx.stringBytes val = some []
  | .ifStatement | .whileLoop | .doWhileLoop | .forLoop =>
      ctx.stringBytes val = some [] ∨ ctx.IsHeapZeroOrNan val

/-! ## The predicates -/

section Predicates

variable (ctx : Context)

theorem key_ne_zero_iff (number : F64) :
    (decide (number.key ≠ 0) && !number.isNan) = true ↔
      ¬(number.isZero = true ∨ number.isNan = true) := by
  have isZero : number.isZero = true ↔ number.key = 0 := by
    rw [F64.isZero, decide_eq_true_iff, key_eq]
    split <;> omega
  rw [isZero, Bool.and_eq_true, decide_eq_true_iff, Bool.not_eq_true', Bool.eq_false_iff, not_or]

/-- An inline integer is false when it is zero. -/
theorem isFalsy_int_iff (n : Int32) : ctx.IsFalsy (.int n) ↔ n = 0 := by
  constructor
  · rintro (isUndefined | isNull | isFalse | ⟨number, isNumber, isZero | isNan⟩ | isEmpty)
    · cases isUndefined
    · cases isNull
    · cases isFalse
    · cases isNumber
      rw [F64.isZero_i32AsF64, decide_eq_true_iff] at isZero
      exact Int32.toInt_inj.mp isZero
    · cases isNumber
      rw [F64.isNan_i32AsF64] at isNan
      cases isNan
    · cases isEmpty
  · rintro rfl
    exact .inr (.inr (.inr (.inl ⟨_, rfl, .inl (by rw [F64.isZero_i32AsF64]; decide)⟩)))

/-- A value on the heap is false when it is a zero, not a number, or empty. -/
theorem isFalsy_ptr_iff (address : ℕ) :
    ctx.IsFalsy (.ptr address) ↔
      ctx.IsHeapZeroOrNan (.ptr address) ∨ ctx.stringBytes (.ptr address) = some [] := by
  constructor
  · rintro (isUndefined | isNull | isFalse | isNumber | isEmpty)
    · cases isUndefined
    · cases isNull
    · cases isFalse
    · exact .inl isNumber
    · exact .inr isEmpty
  · rintro (isNumber | isEmpty)
    · exact .inr (.inr (.inr (.inl isNumber)))
    · exact .inr (.inr (.inr (.inr isEmpty)))

/-- What a value on the heap is. -/
theorem heap_cases (address : ℕ) :
    (∃ number, ctx.floatValue (.ptr address) = some number ∧
      ctx.stringBytes (.ptr address) = none ∧ ctx.heap address = some (.float number)) ∨
    (∃ bytes, ctx.floatValue (.ptr address) = none ∧
      ctx.stringBytes (.ptr address) = some bytes ∧ ctx.heap address = some (.string bytes)) ∨
    (ctx.floatValue (.ptr address) = none ∧ ctx.stringBytes (.ptr address) = none ∧
      ctx.isTruthy (.ptr address) = true) := by
  cases stored : ctx.heap address with
  | none =>
      exact .inr (.inr ⟨by simp only [Context.floatValue, stored],
        by simp only [Context.stringBytes, stored], by simp only [Context.isTruthy, stored]⟩)
  | some cell =>
      cases cell with
      | float number =>
          exact .inl ⟨number, by simp only [Context.floatValue, stored],
            by simp only [Context.stringBytes, stored], rfl⟩
      | string bytes =>
          exact .inr (.inl ⟨bytes, by simp only [Context.floatValue, stored],
            by simp only [Context.stringBytes, stored], rfl⟩)
      | object obj =>
          exact .inr (.inr ⟨by simp only [Context.floatValue, stored],
            by simp only [Context.stringBytes, stored], by simp only [Context.isTruthy, stored]⟩)

/-- The values that are inline and no integers. -/
theorem isFalsy_inline_iff :
    (ctx.IsFalsy .undefined ∧ ctx.IsFalsy .null ∧ ¬ctx.IsFalsy .exception) ∧
      ∀ value : Bool, ctx.IsFalsy (.bool value) ↔ value = false := by
  have onOther {val : JSValue} (noNumber : ctx.numberOf val = none)
      (noText : ctx.stringBytes val = none) (isFalsy : ctx.IsFalsy val) :
      val = .undefined ∨ val = .null ∨ val = .bool false := by
    obtain isUndefined | isNull | isFalse | ⟨number, isNumber, -⟩ | isEmpty := isFalsy
    · exact .inl isUndefined
    · exact .inr (.inl isNull)
    · exact .inr (.inr isFalse)
    · rw [noNumber] at isNumber
      cases isNumber
    · rw [noText] at isEmpty
      cases isEmpty
  refine ⟨⟨.inl rfl, .inr (.inl rfl), fun isFalsy => ?_⟩, fun value => ⟨fun isFalsy => ?_, ?_⟩⟩
  · obtain same | same | same := onOther rfl rfl isFalsy <;> cases same
  · obtain same | same | same := onOther rfl rfl isFalsy <;> cases same
    rfl
  · rintro rfl
    exact .inr (.inr (.inl rfl))

/-- `evals::is_truthy` is the predicate of the language. -/
theorem isTruthy_iff (val : JSValue) : ctx.isTruthy val = true ↔ ¬ctx.IsFalsy val := by
  obtain ⟨⟨isUndefined, isNull, isException⟩, isBool⟩ := isFalsy_inline_iff ctx
  cases val with
  | undefined => exact iff_of_false Bool.false_ne_true (not_not_intro isUndefined)
  | null => exact iff_of_false Bool.false_ne_true (not_not_intro isNull)
  | exception => exact iff_of_true rfl isException
  | bool value =>
      rw [isBool, Bool.not_eq_false]
      rfl
  | int n =>
      rw [isFalsy_int_iff]
      exact decide_eq_true_iff
  | ptr address =>
      rw [isFalsy_ptr_iff, Context.IsHeapZeroOrNan]
      obtain ⟨number, isNumber, noText, stored⟩ | ⟨bytes, noNumber, isText, stored⟩ |
        ⟨noNumber, noText, isTruthy⟩ := heap_cases ctx address
      · simp only [Context.isTruthy, stored, isNumber, noText, Option.some.injEq,
          exists_eq_left', reduceCtorEq, or_false]
        exact key_ne_zero_iff number
      · simp only [Context.isTruthy, stored, noNumber, isText, Option.some.injEq, reduceCtorEq,
          false_and, exists_false, false_or, Bool.not_eq_true', List.isEmpty_eq_false_iff, ne_eq]
      · simp only [isTruthy, noNumber, noText, reduceCtorEq, false_and, exists_false, or_self,
          not_false_eq_true]

theorem arith_isTruthy_ptr (address : ℕ) :
    ArithParser.isTruthy ctx (.ptr address) =
      (ctx.floatValue (.ptr address)).elim true fun number =>
        decide (number.key ≠ 0) && !number.isNan := by
  unfold ArithParser.isTruthy
  dsimp only
  cases ctx.floatValue (.ptr address) <;> rfl

/-- The expression parser takes the empty string for true. -/
theorem arith_isTruthy_iff (val : JSValue) :
    ArithParser.isTruthy ctx val = true ↔
      ¬ctx.IsFalsy val ∨ ctx.stringBytes val = some [] := by
  cases val with
  | ptr address =>
      rw [isFalsy_ptr_iff, Context.IsHeapZeroOrNan, arith_isTruthy_ptr]
      obtain ⟨number, isNumber, noText, stored⟩ | ⟨bytes, noNumber, isText, stored⟩ |
        ⟨noNumber, noText, isTruthy⟩ := heap_cases ctx address
      · simp only [isNumber, noText, Option.elim_some, Option.some.injEq, exists_eq_left',
          reduceCtorEq, or_false]
        exact key_ne_zero_iff number
      · simp only [noNumber, Option.elim_none, reduceCtorEq, false_and, exists_false, false_or,
          true_iff]
        exact (em _).symm
      · simp only [noNumber, noText, Option.elim_none, reduceCtorEq, false_and, exists_false,
          or_self, not_false_eq_true, or_false]
  | _ =>
      rw [← isTruthy_iff]
      exact (or_iff_left (fun isText => by cases isText)).symm

/-- Statements take every value on the heap for true. -/
theorem isTrue_iff (val : JSValue) :
    Walker.isTrue val = true ↔
      ¬ctx.IsFalsy val ∨ ctx.stringBytes val = some [] ∨ ctx.IsHeapZeroOrNan val := by
  cases val with
  | ptr address =>
      rw [isFalsy_ptr_iff]
      refine iff_of_true rfl ?_
      tauto
  | _ =>
      rw [← isTruthy_iff]
      refine (or_iff_left ?_).symm
      rintro (isText | ⟨number, isNumber, -⟩)
      · cases isText
      · cases isNumber

end Predicates

/-! ## One notion -/

/-- A construct takes a value for true when it is, or when the construct misses it. -/
theorem Construct.decides_iff (construct : Construct) (ctx : Context) (val : JSValue) :
    construct.decides ctx val = true ↔ ¬ctx.IsFalsy val ∨ construct.Misses ctx val := by
  cases construct with
  | jumpIfFalse | jumpIfTrue | not | and | or | conditional =>
      exact (isTruthy_iff ctx val).trans (or_iff_left id).symm
  | logicalAnd | logicalOr | logicalNot => exact arith_isTruthy_iff ctx val
  | ifStatement | whileLoop | doWhileLoop | forLoop => exact isTrue_iff ctx val

/-- Values that are missed are false. -/
theorem Construct.isFalsy_of_misses {construct : Construct} {ctx : Context} {val : JSValue}
    (misses : construct.Misses ctx val) : ctx.IsFalsy val := by
  have ofText (isEmpty : ctx.stringBytes val = some []) : ctx.IsFalsy val :=
    .inr (.inr (.inr (.inr isEmpty)))
  cases construct with
  | jumpIfFalse | jumpIfTrue | not | and | or | conditional => exact misses.elim
  | logicalAnd | logicalOr | logicalNot => exact ofText misses
  | ifStatement | whileLoop | doWhileLoop | forLoop =>
      obtain isEmpty | ⟨number, isNumber, isZero⟩ := misses
      · exact ofText isEmpty
      · refine .inr (.inr (.inr (.inl ⟨number, ?_, isZero⟩)))
        cases val with
        | ptr address => exact isNumber
        | _ => cases isNumber

/-- The instructions of the machine branch on a value by a truth value. -/
structure VmBranches (ctx : Context) (val : JSValue) (truth : Bool) : Prop where
  jumps : ∀ (host : Host) (func : BytecodeFunction) (state : VmState) (stack : List JSValue)
    (a b : UInt32), state.ctx = ctx → state.stack = val :: stack →
      (Instruction.mk .jumpIfFalse a b).exec host func state = state.branch stack a (!truth) ∧
      (Instruction.mk .jumpIfTrue a b).exec host func state = state.branch stack a truth ∧
      (Instruction.mk .not a b).exec host func state = state.goOn (.bool (!truth) :: stack) ctx
  operators : ∀ (host : Host) (func : BytecodeFunction) (state : VmState) (stack : List JSValue)
    (right : JSValue) (a b : UInt32), state.ctx = ctx → state.stack = right :: val :: stack →
      (Instruction.mk .and a b).exec host func state =
        state.goOn ((if truth then right else val) :: stack) ctx ∧
      (Instruction.mk .or a b).exec host func state =
        state.goOn ((if truth then val else right) :: stack) ctx

/-- The machine branches by the truth of the language. -/
theorem vmBranches_of_iff {ctx : Context} {val : JSValue} {truth : Bool}
    (isTruth : truth = true ↔ ¬ctx.IsFalsy val) : VmBranches ctx val truth := by
  obtain rfl : truth = ctx.isTruthy val := Bool.eq_iff_iff.mpr (isTruth.trans (isTruthy_iff ctx val).symm)
  constructor
  · rintro host func state stack a b rfl isStack
    simp only [Instruction.exec, VmState.pop, isStack, and_self]
  · rintro host func state stack right a b rfl isStack
    simp only [Instruction.exec, VmState.pop₂, isStack, and_self]

/-- A construct decides by the truth of the language exactly for the values that it does
not miss; all constructs decide alike exactly for values other than the empty string and
zeros and not a number on the heap; and the machine branches by the truth of the
language. -/
theorem truthiness_iff (ctx : Context) (val : JSValue) :
    (∀ construct : Construct,
      (construct.decides ctx val = true ↔ ¬ctx.IsFalsy val) ↔ ¬construct.Misses ctx val) ∧
    ((∀ construct other : Construct, construct.decides ctx val = other.decides ctx val) ↔
      ¬(ctx.stringBytes val = some [] ∨ ctx.IsHeapZeroOrNan val)) ∧
    ∀ truth : Bool, (truth = true ↔ ¬ctx.IsFalsy val) → VmBranches ctx val truth := by
  have decidesRight (construct : Construct) :
      (construct.decides ctx val = true ↔ ¬ctx.IsFalsy val) ↔ ¬construct.Misses ctx val := by
    rw [construct.decides_iff]
    have isFalsy := @Construct.isFalsy_of_misses construct ctx val
    tauto
  refine ⟨decidesRight, ⟨fun same misses => ?_, fun sound construct other => ?_⟩,
    fun truth isTruth => vmBranches_of_iff isTruth⟩
  · have isRight := (decidesRight .not).mpr id
    rw [same .not .ifStatement] at isRight
    exact (decidesRight .ifStatement).mp isRight misses
  · have notMissed (construct : Construct) : ¬construct.Misses ctx val := by
      cases construct with
      | jumpIfFalse | jumpIfTrue | not | and | or | conditional => exact id
      | logicalAnd | logicalOr | logicalNot => exact fun isEmpty => sound (.inl isEmpty)
      | ifStatement | whileLoop | doWhileLoop | forLoop => exact sound
    rw [Bool.eq_iff_iff, (decidesRight construct).mpr (notMissed construct),
      (decidesRight other).mpr (notMissed other)]

/-- A context with an empty string. -/
def emptyText : Context :=
  { Context.new 4096 with heap := Function.update (fun _ => none) 0 (some (.string [])) }

/-- The empty string is false, and an if statement takes it for true. -/
theorem not_always_truthiness :
    ¬∀ (ctx : Context) (val : JSValue) (construct : Construct),
      construct.decides ctx val = true ↔ ¬ctx.IsFalsy val := by
  intro always
  have isText : emptyText.stringBytes (.ptr 0) = some [] := by
    simp only [Context.stringBytes, emptyText, Function.update_self]
  have isFalsy : emptyText.IsFalsy (.ptr 0) := .inr (.inr (.inr (.inr isText)))
  exact (always emptyText (.ptr 0) .ifStatement).mp rfl isFalsy

end Script
end MuonJs
