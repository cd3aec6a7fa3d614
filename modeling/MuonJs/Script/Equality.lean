import MuonJs.Script.StringToNumber
import MuonJs.Script.Arithmetic

/-!
# Equality

`vm_loose_eq` and `vm_strict_eq` of the machine, `==` and `===` of `compare_values`, and
the equalities of the language on values without a representation.  The functions share
their way: identical words first, then `null` with `undefined`, the texts of strings,
the types, and at the end the numbers of whatever is left.
-/

namespace MuonJs
namespace Script

open Cache (Bytes F64 asBytes fromUtf8)

/-! ## Texts -/

/-- `char::encode_utf16`. -/
def encodeUtf16 (code : ℕ) : List UInt16 :=
  if code < 0x10000 then [UInt16.ofNat code]
  else [UInt16.ofNat (0xD800 + (code - 0x10000) / 0x400),
    UInt16.ofNat (0xDC00 + (code - 0x10000) % 0x400)]

/-- The units of a character; the private characters from `0xE000` to `0xE7FF` stand for
surrogates. -/
def charUnits (char : Char) : List UInt16 :=
  if 0xE000 ≤ char.toNat ∧ char.toNat ≤ 0xE7FF then [UInt16.ofNat (char.toNat - 0x800)]
  else encodeUtf16 char.toNat

/-- The units of a text. -/
def textUnits (bytes : Bytes) : Option (List UInt16) :=
  (fromUtf8 bytes).map fun text => text.toList.flatMap charUnits

/-- `==` of `f64`. -/
def numbersEqual (left right : F64) : Bool := left.partialCmp right = some .eq

/-! ## The four functions -/

namespace Context

variable (conversions : Conversions) (ctx : Context)

/-- `string_utf16_units`. -/
def stringUtf16Units (val : JSValue) : Option (List UInt16) :=
  (ctx.stringBytes val).bind textUnits

/-- `string_units_equal`. -/
def stringUnitsEqual (a b : JSValue) : Option Bool :=
  (ctx.stringUtf16Units a).bind fun ua =>
    (ctx.stringUtf16Units b).map fun ub => decide (ua = ub)

/-- `js_type_tag` and `strict_eq_type_tag`. -/
def typeTag : JSValue → ℕ
  | .undefined => 0
  | .null => 1
  | .bool _ => 2
  | .int _ => 3
  | .exception => 5
  | .ptr address =>
      match ctx.heap address with
      | some (.float _) => 3
      | some (.string _) => 4
      | _ => 5

/-- The numbers of both values are equal; an exception is no number. -/
def bothNumbersEqual (a b : JSValue) : Bool × Context :=
  let (ln, ctx) := ctx.jsToNumber conversions a
  let (rn, ctx) := ctx.jsToNumber conversions b
  ((ln.bind fun l => rn.map fun r => numbersEqual l r).getD false, ctx)

/-- One value is `null` and the other `undefined`. -/
def isNullAndUndefined (a b : JSValue) : Bool :=
  (a = .null ∧ b = .undefined) ∨ (a = .undefined ∧ b = .null)

/-- `vm_loose_eq`. -/
def vmLooseEq (a b : JSValue) : Bool × Context :=
  if a = b then (true, ctx)
  else if isNullAndUndefined a b then (true, ctx)
  else
    match ctx.stringBytes a, ctx.stringBytes b with
    | some la, some lb => (la = lb, ctx)
    | _, _ => ctx.bothNumbersEqual conversions a b

/-- `vm_strict_eq`. -/
def vmStrictEq (a b : JSValue) : Bool × Context :=
  if a = b then (true, ctx)
  else
    match ctx.stringBytes a, ctx.stringBytes b with
    | some la, some lb => (la = lb, ctx)
    | _, _ =>
        if ctx.typeTag a ≠ ctx.typeTag b then (false, ctx)
        else ctx.bothNumbersEqual conversions a b

/-- `ArithParser::compare_values` with `==`. -/
def compareLoose (a b : JSValue) : Bool × Context :=
  if isNullAndUndefined a b then (true, ctx)
  else
    match ctx.stringUnitsEqual a b with
    | some eq => (eq, ctx)
    | none => if a = b then (true, ctx) else ctx.bothNumbersEqual conversions a b

/-- `ArithParser::compare_values` with `===`. -/
def compareStrict (a b : JSValue) : Bool × Context :=
  if a = b then (true, ctx)
  else
    match ctx.stringUnitsEqual a b with
    | some eq => (eq, ctx)
    | none =>
        if ctx.typeTag a ≠ ctx.typeTag b then (false, ctx)
        else ctx.bothNumbersEqual conversions a b

end Context

/-! ## Values of the language -/

/-- A value without its representation. -/
inductive EsValue
  | undefined
  | null
  | bool (value : Bool)
  | number (value : F64)
  | string (text : Bytes)
  | object (address : ℕ)

/-- The value that is represented, if it is one. -/
def Context.esValue (ctx : Context) : JSValue → Option EsValue
  | .undefined => some .undefined
  | .null => some .null
  | .bool value => some (.bool value)
  | .int n => some (.number (i32AsF64 n))
  | .exception => none
  | .ptr address =>
      (ctx.heap address).map fun cell =>
        match cell with
        | .float value => .number value
        | .string text => .string text
        | .object _ => .object address

/-- The number of a text in the language. -/
def TextNumber (text : Bytes) (number : F64) : Prop :=
  (∃ literal : NumericLiteral, literal.bytes = esTrim text ∧ number = literal.number) ∨
    ¬IsLiteral (esTrim text) ∧ number = .nan

/-- The number of a boolean. -/
def boolNumber (value : Bool) : F64 := i32AsF64 (if value then 1 else 0)

namespace EsValue

/-- `===`: the same type and the same value. -/
def StrictlyEqual : EsValue → EsValue → Prop
  | .undefined, .undefined => True
  | .null, .null => True
  | .bool x, .bool y => x = y
  | .number x, .number y => numbersEqual x y = true
  | .string s, .string t => textUnits s = textUnits t
  | .object p, .object q => p = q
  | _, _ => False

/-- The number of a primitive value. -/
def IsNumber : EsValue → F64 → Prop
  | .undefined, n => n = .nan
  | .null, n => n = .zero
  | .bool value, n => n = boolNumber value
  | .number value, n => n = value
  | .string text, n => TextNumber text n
  | .object _, _ => False

/-- Equal numbers. -/
def NumbersMeet (a b : EsValue) : Prop :=
  ∃ x y, a.IsNumber x ∧ b.IsNumber y ∧ numbersEqual x y = true

/-- `undefined` or `null`. -/
def IsNullish : EsValue → Prop
  | .undefined => True
  | .null => True
  | _ => False

/-- `==` of primitive values. -/
def PrimitivesEqual : EsValue → EsValue → Prop
  | .object _, _ => False
  | _, .object _ => False
  | .undefined, b => b.IsNullish
  | .null, b => b.IsNullish
  | _, .undefined => False
  | _, .null => False
  | .string s, .string t => textUnits s = textUnits t
  | a, b => NumbersMeet a b

/-- `==`, where an object has the primitive value that `primitive` gives. -/
def LooselyEqual (primitive : ℕ → Option EsValue) : EsValue → EsValue → Prop
  | .object p, .object q => p = q
  | .object p, b => ¬b.IsNullish ∧ ∃ a, primitive p = some a ∧ PrimitivesEqual a b
  | a, .object q => ¬a.IsNullish ∧ ∃ b, primitive q = some b ∧ PrimitivesEqual a b
  | a, b => PrimitivesEqual a b

end EsValue

/-! ## Deviations -/

/-- The number that `js_to_number` gives for a primitive value. -/
def EsValue.codeNumber : EsValue → Option F64
  | .undefined => some .nan
  | .null => some .zero
  | .bool value => some (boolNumber value)
  | .number value => some value
  | .string text => some (stringToNumber text)
  | .object _ => none

/-- The numbers that `js_to_number` gives are equal. -/
def EsValue.CodeNumbersMeet (a b : EsValue) : Prop :=
  ∃ x y, a.codeNumber = some x ∧ b.codeNumber = some y ∧ numbersEqual x y = true

/-- A number is equal to what `js_to_number` makes of a text, but not to the number of
the text, or the other way round. -/
def TextDiffers (number : F64) (text : Bytes) : Prop :=
  ¬(numbersEqual number (stringToNumber text) = true ↔
    ∃ standard, TextNumber text standard ∧ numbersEqual number standard = true)

/-- Two primitive values whose comparison by numbers is wrong: `null` with a value whose
number is zero, and a text that differs. -/
def PrimitiveDeviates : EsValue → EsValue → Prop
  | .null, .bool value => value = false
  | .null, .number number => numbersEqual .zero number = true
  | .null, .string text => numbersEqual .zero (stringToNumber text) = true
  | .bool value, .string text => TextDiffers (boolNumber value) text
  | .number number, .string text => TextDiffers number text
  | _, _ => False

/-- The primitive value that `primitive` gives for an object has the number of another
value, as `js_to_number` gives them. -/
def MeetsByNumber (primitive : ℕ → Option EsValue) (p : ℕ) (b : EsValue) : Prop :=
  ∃ v, primitive p = some v ∧ v.CodeNumbersMeet b

/-- The primitive value of an object is compared with another value by numbers where that
is wrong: two texts, or values of which one deviates. -/
def ValueDeviates (language : ℕ → Option EsValue) (p : ℕ) (b : EsValue) : Prop :=
  (∃ s t, language p = some (.string s) ∧ b = .string t ∧
    ¬(numbersEqual (stringToNumber s) (stringToNumber t) = true ↔ textUnits s = textUnits t)) ∨
  ∃ v, language p = some v ∧ (PrimitiveDeviates v b ∨ PrimitiveDeviates b v)

/-- An object beside a primitive value: number zero beside `null`; beside any other value,
either the primitive values of the code and of the language do not both have its number,
or the language's own deviates from it.  Two mistakes cancel. -/
def ObjectDeviates (primitive language : ℕ → Option EsValue) : EsValue → EsValue → Prop
  | .object _, .object _ => False
  | .object p, .null => MeetsByNumber primitive p .null
  | .object p, b =>
      Xor (¬(MeetsByNumber primitive p b ↔ MeetsByNumber language p b))
        (ValueDeviates language p b)
  | _, _ => False

/-! ## Equality of numbers -/

theorem numbersEqual_iff (x y : F64) :
    numbersEqual x y = true ↔ x.isNan = false ∧ y.isNan = false ∧ x.key = y.key := by
  rw [numbersEqual, decide_eq_true_iff, F64.partialCmp]
  cases x.isNan <;> cases y.isNan <;>
    simp only [Bool.or_self, Bool.or_true, Bool.true_or, Bool.false_eq_true, if_true, if_false,
      reduceCtorEq, false_and, and_false, true_and, Option.some.injEq, compare_eq_iff_eq]

theorem numbersEqual_comm (x y : F64) : numbersEqual x y = numbersEqual y x := by
  rw [Bool.eq_iff_iff, numbersEqual_iff, numbersEqual_iff]
  tauto

theorem numbersEqual_self_iff (x : F64) : numbersEqual x x = true ↔ x.isNan = false := by
  rw [numbersEqual_iff]
  tauto

theorem not_numbersEqual_nan (x : F64) : numbersEqual .nan x = false := by
  refine Bool.eq_false_iff.mpr fun equal => ?_
  cases ((numbersEqual_iff _ _).mp equal).1

theorem numbersEqual_boolNumber : ∀ x y : Bool,
    numbersEqual (boolNumber x) (boolNumber y) = true ↔ x = y := by
  decide +kernel

theorem numbersEqual_zero_boolNumber : ∀ x : Bool,
    numbersEqual .zero (boolNumber x) = true ↔ x = false := by
  decide +kernel

namespace EsValue

variable {a b : EsValue}

theorem CodeNumbersMeet.symm (meet : a.CodeNumbersMeet b) : b.CodeNumbersMeet a := by
  obtain ⟨x, y, isLeft, isRight, equal⟩ := meet
  exact ⟨y, x, isRight, isLeft, (numbersEqual_comm y x).trans equal⟩

theorem NumbersMeet.symm (meet : NumbersMeet a b) : NumbersMeet b a := by
  obtain ⟨x, y, isLeft, isRight, equal⟩ := meet
  exact ⟨y, x, isRight, isLeft, (numbersEqual_comm y x).trans equal⟩

theorem numbersMeet_comm : NumbersMeet a b ↔ NumbersMeet b a :=
  ⟨NumbersMeet.symm, NumbersMeet.symm⟩

theorem codeNumbersMeet_comm : a.CodeNumbersMeet b ↔ b.CodeNumbersMeet a :=
  ⟨CodeNumbersMeet.symm, CodeNumbersMeet.symm⟩

theorem primitivesEqual_comm : PrimitivesEqual a b ↔ PrimitivesEqual b a := by
  cases a <;> cases b <;>
    first
    | exact Iff.rfl
    | exact eq_comm
    | exact numbersMeet_comm

/-- The types. -/
def tag : EsValue → ℕ
  | .undefined => 0
  | .null => 1
  | .bool _ => 2
  | .number _ => 3
  | .string _ => 4
  | .object _ => 5

/-- Values other than objects are compared as they are. -/
theorem looselyEqual_iff (primitive : ℕ → Option EsValue) (isLeft : a.tag < 5)
    (isRight : b.tag < 5) : LooselyEqual primitive a b ↔ PrimitivesEqual a b := by
  cases a <;> cases b <;>
    first
    | exact Iff.rfl
    | exact absurd isLeft (lt_irrefl 5)
    | exact absurd isRight (lt_irrefl 5)

/-- An object is compared by its primitive value. -/
theorem looselyEqual_object_iff (primitive : ℕ → Option EsValue) (p : ℕ) (isRight : b.tag < 5) :
    LooselyEqual primitive (.object p) b ↔
      ¬b.IsNullish ∧ ∃ a, primitive p = some a ∧ PrimitivesEqual a b := by
  cases b with
  | object q => exact absurd isRight (lt_irrefl 5)
  | _ => exact Iff.rfl

theorem exists_object (notPrimitive : ¬a.tag < 5) : ∃ p, a = .object p := by
  cases a with
  | object p => exact ⟨p, rfl⟩
  | _ => exact absurd (by simp [tag]) notPrimitive

theorem looselyEqual_comm (primitive : ℕ → Option EsValue) :
    LooselyEqual primitive a b ↔ LooselyEqual primitive b a := by
  have onObject (p : ℕ) {b : EsValue} (isRight : b.tag < 5) :
      LooselyEqual primitive (.object p) b ↔ LooselyEqual primitive b (.object p) := by
    rw [looselyEqual_object_iff primitive p isRight]
    have symmetric : (∃ a, primitive p = some a ∧ PrimitivesEqual a b) ↔
        ∃ a, primitive p = some a ∧ PrimitivesEqual b a :=
      exists_congr fun _ => and_congr_right fun _ => primitivesEqual_comm
    rw [symmetric]
    cases b with
    | object q => exact absurd isRight (lt_irrefl 5)
    | _ => exact Iff.rfl
  by_cases isLeft : a.tag < 5
  · by_cases isRight : b.tag < 5
    · rw [looselyEqual_iff primitive isLeft isRight, looselyEqual_iff primitive isRight isLeft,
        primitivesEqual_comm]
    · obtain ⟨q, rfl⟩ := exists_object isRight
      exact (onObject q isLeft).symm
  · obtain ⟨p, rfl⟩ := exists_object isLeft
    by_cases isRight : b.tag < 5
    · exact onObject p isRight
    · obtain ⟨q, rfl⟩ := exists_object isRight
      exact eq_comm

theorem codeNumbersMeet_iff {x y : F64} (isLeft : a.codeNumber = some x)
    (isRight : b.codeNumber = some y) : a.CodeNumbersMeet b ↔ numbersEqual x y = true := by
  constructor
  · rintro ⟨x', y', isLeft', isRight', equal⟩
    cases isLeft.symm.trans isLeft'
    cases isRight.symm.trans isRight'
    exact equal
  · exact fun equal => ⟨x, y, isLeft, isRight, equal⟩

theorem numbersMeet_text_iff {number : F64} {text : Bytes} (isLeft : ∀ n, a.IsNumber n ↔ n = number) :
    NumbersMeet a (.string text) ↔
      ∃ standard, TextNumber text standard ∧ numbersEqual number standard = true := by
  constructor
  · rintro ⟨x, y, isNumber, isText, equal⟩
    obtain rfl := (isLeft x).mp isNumber
    exact ⟨y, isText, equal⟩
  · rintro ⟨y, isText, equal⟩
    exact ⟨number, y, (isLeft number).mpr rfl, isText, equal⟩

theorem numbersMeet_iff {x y : F64} (isLeft : ∀ n, a.IsNumber n ↔ n = x)
    (isRight : ∀ n, b.IsNumber n ↔ n = y) : NumbersMeet a b ↔ numbersEqual x y = true := by
  constructor
  · rintro ⟨x', y', isNumber, isNumber', equal⟩
    obtain rfl := (isLeft x').mp isNumber
    obtain rfl := (isRight y').mp isNumber'
    exact equal
  · exact fun equal => ⟨x, y, (isLeft x).mpr rfl, (isRight y).mpr rfl, equal⟩

/-- `undefined` is compared as not a number. -/
theorem not_codeNumbersMeet_undefined (b : EsValue) : ¬CodeNumbersMeet .undefined b := by
  rintro ⟨x, y, isLeft, -, equal⟩
  cases isLeft
  rw [not_numbersEqual_nan] at equal
  cases equal

/-- Primitive values of different types, compared by numbers: right exactly when the first
does not deviate from the second. -/
theorem codeNumbersMeet_iff_of_tag (ordered : a.tag < b.tag) (isPrimitive : b.tag < 5)
    (notNullish : 1 < b.tag) :
    (a.CodeNumbersMeet b ↔ PrimitivesEqual a b) ↔ ¬PrimitiveDeviates a b := by
  have isSame {number : F64} : ∀ n, n = number ↔ n = number := fun _ => Iff.rfl
  have onNull {b : EsValue} {y : F64} {deviates : Prop} (isNumber : b.codeNumber = some y)
      (isDeviation : numbersEqual .zero y = true ↔ deviates) :
      (CodeNumbersMeet .null b ↔ False) ↔ ¬deviates := by
    rw [codeNumbersMeet_iff (show codeNumber .null = some .zero from rfl) isNumber, isDeviation,
      iff_false]
  have onText {x : F64} {text : Bytes} (isNumber : a.codeNumber = some x)
      (isStandard : ∀ n, a.IsNumber n ↔ n = x) :
      (a.CodeNumbersMeet (.string text) ↔ NumbersMeet a (.string text)) ↔
        ¬TextDiffers x text := by
    rw [codeNumbersMeet_iff isNumber (show codeNumber (.string text) = _ from rfl),
      numbersMeet_text_iff isStandard, TextDiffers, not_not]
  cases a with
  | undefined =>
      refine iff_of_true (iff_of_false (not_codeNumbersMeet_undefined b) ?_) id
      cases b with
      | undefined | null => exact absurd notNullish (by simp [tag])
      | bool y | number y | string t => exact id
      | object q => exact absurd isPrimitive (lt_irrefl 5)
  | null =>
      cases b with
      | undefined | null => exact absurd notNullish (by simp [tag])
      | bool y => exact onNull rfl (numbersEqual_zero_boolNumber y)
      | number y => exact onNull rfl Iff.rfl
      | string t => exact onNull rfl Iff.rfl
      | object q => exact absurd isPrimitive (lt_irrefl 5)
  | bool x =>
      cases b with
      | undefined | null | bool y => exact absurd ordered (by simp [tag])
      | number y =>
          refine iff_of_true ?_ id
          rw [codeNumbersMeet_iff rfl rfl]
          exact (@numbersMeet_iff (.bool x) (.number y) _ _ isSame isSame).symm
      | string t => exact onText rfl isSame
      | object q => exact absurd isPrimitive (lt_irrefl 5)
  | number x =>
      cases b with
      | undefined | null | bool y | number y => exact absurd ordered (by simp [tag])
      | string t => exact onText rfl isSame
      | object q => exact absurd isPrimitive (lt_irrefl 5)
  | string s =>
      exact absurd (Nat.lt_of_lt_of_le ordered (Nat.le_of_lt_succ isPrimitive)) (lt_irrefl 4)
  | object p => exact absurd (ordered.trans isPrimitive) (lt_irrefl 5)

/-- A deviation is one of the lesser type. -/
theorem tag_lt_of_primitiveDeviates (deviates : PrimitiveDeviates a b) : a.tag < b.tag := by
  cases a <;> cases b <;> first | exact deviates.elim | exact (by simp [tag])

/-- Primitive values of different types, not both `null` or `undefined`. -/
theorem codeNumbersMeet_iff_primitivesEqual (differ : a.tag ≠ b.tag) (isLeft : a.tag < 5)
    (isRight : b.tag < 5) (notNullish : 1 < a.tag ∨ 1 < b.tag) :
    (a.CodeNumbersMeet b ↔ PrimitivesEqual a b) ↔
      ¬(PrimitiveDeviates a b ∨ PrimitiveDeviates b a) := by
  obtain ordered | ordered := Nat.lt_or_gt_of_ne differ
  · rw [codeNumbersMeet_iff_of_tag ordered isRight (by omega), or_iff_left]
    exact fun deviates => absurd (tag_lt_of_primitiveDeviates deviates) (by omega)
  · rw [codeNumbersMeet_comm, primitivesEqual_comm,
      codeNumbersMeet_iff_of_tag ordered isLeft (by omega), or_iff_right]
    exact fun deviates => absurd (tag_lt_of_primitiveDeviates deviates) (by omega)

end EsValue

/-! ## Numbers of values -/

/-- The conversion of an object does not change the numbers and texts on the heap. -/
structure Conversions.Keeps (conversions : Conversions) : Prop where
  float : ∀ (preferNumber : Bool) (ctx : Context) (val : JSValue) (address : ℕ) (number : F64),
    ctx.heap address = some (.float number) →
      (conversions.toPrimitive preferNumber ctx val).2.heap address = some (.float number)
  string : ∀ (preferNumber : Bool) (ctx : Context) (val : JSValue) (address : ℕ) (text : Bytes),
    ctx.heap address = some (.string text) →
      (conversions.toPrimitive preferNumber ctx val).2.heap address = some (.string text)

/-- The primitive value of an object. -/
def Context.primitiveOf (conversions : Conversions) (ctx : Context) (address : ℕ) :
    Option EsValue :=
  let (prim, after) := conversions.toPrimitive true ctx (.ptr address)
  after.esValue prim

section Values

variable {conversions : Conversions} {ctx : Context} {val : JSValue} {value : EsValue}

/-- What is at a pointer. -/
theorem esValue_ptr_cases {address : ℕ} (isValue : ctx.esValue (.ptr address) = some value) :
    (∃ number, ctx.heap address = some (.float number) ∧ value = .number number) ∨
    (∃ text, ctx.heap address = some (.string text) ∧ value = .string text) ∨
    ∃ obj, ctx.heap address = some (.object obj) ∧ value = .object address := by
  obtain ⟨cell, stored, rfl⟩ := Option.map_eq_some_iff.mp isValue
  cases cell with
  | float number => exact .inl ⟨number, stored, rfl⟩
  | string text => exact .inr (.inl ⟨text, stored, rfl⟩)
  | object obj => exact .inr (.inr ⟨obj, stored, rfl⟩)

/-- The number of a primitive value. -/
theorem jsToNumber_of_esValue (isValue : ctx.esValue val = some value) (isPrimitive : value.tag < 5) :
    ctx.jsToNumber conversions val = (value.codeNumber, ctx) := by
  cases val with
  | undefined => cases isValue; rfl
  | null => cases isValue; rfl
  | bool b => cases isValue; rfl
  | int n => cases isValue; rfl
  | exception => cases isValue
  | ptr address =>
      obtain ⟨number, stored, rfl⟩ | ⟨text, stored, rfl⟩ | ⟨obj, stored, rfl⟩ :=
        esValue_ptr_cases isValue
      · exact Context.jsToNumber_of_float conversions stored
      · refine Context.jsToNumber_of_string conversions ?_
        simp only [Context.stringBytes, stored]
      · exact absurd isPrimitive (lt_irrefl 5)

/-- A value that is an object. -/
theorem eq_ptr_of_object {address : ℕ} (isValue : ctx.esValue val = some (.object address)) :
    val = .ptr address ∧ ∃ obj, ctx.heap address = some (.object obj) := by
  cases val with
  | ptr place =>
      obtain ⟨number, -, same⟩ | ⟨text, -, same⟩ | ⟨obj, stored, same⟩ := esValue_ptr_cases isValue
      · cases same
      · cases same
      · cases same
        exact ⟨rfl, obj, stored⟩
  | _ => cases isValue

/-- The conversion of an object keeps primitive values. -/
theorem esValue_toPrimitive (keeps : conversions.Keeps) (object : JSValue)
    (isValue : ctx.esValue val = some value) (isPrimitive : value.tag < 5) :
    (conversions.toPrimitive true ctx object).2.esValue val = some value := by
  cases val with
  | ptr address =>
      obtain ⟨number, stored, rfl⟩ | ⟨text, stored, rfl⟩ | ⟨obj, stored, rfl⟩ :=
        esValue_ptr_cases isValue
      · rw [Context.esValue, keeps.float true ctx object address number stored]
        rfl
      · rw [Context.esValue, keeps.string true ctx object address text stored]
        rfl
      · exact absurd isPrimitive (lt_irrefl 5)
  | _ => exact isValue

theorem primitiveToNumber_eq (notObject : ctx.objectPtr val = none) :
    ctx.primitiveToNumber val = (ctx.esValue val).bind EsValue.codeNumber := by
  cases val with
  | ptr address =>
      cases stored : ctx.heap address with
      | none => simp only [Context.primitiveToNumber, Context.esValue, stored, Option.map_none,
          Option.bind_none]
      | some cell =>
          cases cell with
          | float | string => simp only [Context.primitiveToNumber, Context.esValue, stored,
              Option.map_some, Option.bind_some, EsValue.codeNumber]
          | object obj =>
              simp only [Context.objectPtr, stored] at notObject
              cases notObject
  | _ => rfl

/-- The number of an object is the one of its primitive value. -/
theorem jsToNumber_of_object {address : ℕ} (isValue : ctx.esValue val = some (.object address)) :
    (ctx.jsToNumber conversions val).2 = (conversions.toPrimitive true ctx val).2 ∧
      ∀ y, (∃ x, (ctx.jsToNumber conversions val).1 = some x ∧ numbersEqual x y = true) ↔
        ∃ a, ctx.primitiveOf conversions address = some a ∧
          ∃ x, a.codeNumber = some x ∧ numbersEqual x y = true := by
  obtain ⟨rfl, obj, stored⟩ := eq_ptr_of_object isValue
  have isObject : (ctx.objectPtr (.ptr address)).isSome = true := by
    simp only [Context.objectPtr, stored, Option.isSome_some]
  rw [Context.jsToNumber, if_pos isObject, Context.primitiveOf]
  generalize conversions.toPrimitive true ctx (.ptr address) = outcome
  obtain ⟨prim, after⟩ := outcome
  dsimp only
  by_cases isException : prim = .exception
  · rw [if_pos isException, isException]
    refine ⟨rfl, fun y => iff_of_false ?_ ?_⟩
    · rintro ⟨x, isNone, -⟩
      cases isNone
    · rintro ⟨a, isNone, -⟩
      cases isNone
  rw [if_neg isException]
  cases isObject : after.objectPtr prim with
  | none =>
      rw [Option.isNone_none, if_pos rfl, primitiveToNumber_eq isObject]
      refine ⟨rfl, fun y => ⟨?_, ?_⟩⟩
      · rintro ⟨x, isNumber, equal⟩
        obtain ⟨a, isPrimitive, isCode⟩ := Option.bind_eq_some_iff.mp isNumber
        exact ⟨a, isPrimitive, x, isCode, equal⟩
      · rintro ⟨a, isPrimitive, x, isCode, equal⟩
        exact ⟨x, Option.bind_eq_some_iff.mpr ⟨a, isPrimitive, isCode⟩, equal⟩
  | some found =>
      have isReference : ∃ place, after.esValue prim = some (.object place) := by
        cases prim with
        | ptr place =>
            refine ⟨place, ?_⟩
            unfold Context.objectPtr at isObject
            dsimp only at isObject
            split at isObject
            case h_1 obj stored => rw [Context.esValue, stored]; rfl
            case h_2 => cases isObject
        | _ => cases isObject
      obtain ⟨place, isPlace⟩ := isReference
      rw [Option.isNone_some, if_neg Bool.false_ne_true]
      refine ⟨by split <;> rfl, fun y => iff_of_false ?_ ?_⟩
      · rintro ⟨x, isNumber, equal⟩
        split at isNumber
        · cases isNumber
        · cases isNumber
          rw [not_numbersEqual_nan] at equal
          cases equal
      · rintro ⟨a, isPrimitive, x, isCode, -⟩
        rw [isPlace] at isPrimitive
        cases isPrimitive
        cases isCode

end Values

section Numbers

variable {conversions : Conversions} {ctx : Context} {a b : JSValue} {va vb : EsValue}

theorem bothNumbersEqual_iff :
    (ctx.bothNumbersEqual conversions a b).1 = true ↔
      ∃ x y, (ctx.jsToNumber conversions a).1 = some x ∧
        ((ctx.jsToNumber conversions a).2.jsToNumber conversions b).1 = some y ∧
        numbersEqual x y = true := by
  unfold Context.bothNumbersEqual
  dsimp only
  cases (ctx.jsToNumber conversions a).1 with
  | none =>
      refine iff_of_false Bool.false_ne_true ?_
      rintro ⟨x, y, isNone, -⟩
      cases isNone
  | some x =>
      cases ((ctx.jsToNumber conversions a).2.jsToNumber conversions b).1 with
      | none =>
          refine iff_of_false Bool.false_ne_true ?_
          rintro ⟨x', y, -, isNone, -⟩
          cases isNone
      | some y =>
          constructor
          · exact fun equal => ⟨x, y, rfl, rfl, equal⟩
          · rintro ⟨x', y', isLeft, isRight, equal⟩
            cases isLeft
            cases isRight
            exact equal

/-- Primitive values are compared by their numbers. -/
theorem bothNumbersEqual_primitives (isLeft : ctx.esValue a = some va)
    (isRight : ctx.esValue b = some vb) (leftPrimitive : va.tag < 5) (rightPrimitive : vb.tag < 5) :
    (ctx.bothNumbersEqual conversions a b).1 = true ↔ va.CodeNumbersMeet vb := by
  rw [bothNumbersEqual_iff, jsToNumber_of_esValue isLeft leftPrimitive,
    jsToNumber_of_esValue isRight rightPrimitive]
  exact Iff.rfl

/-- An object and a primitive value are compared by the number of the object's primitive
value, -/
theorem bothNumbersEqual_left (keeps : conversions.Keeps) {p : ℕ}
    (isLeft : ctx.esValue a = some (.object p)) (isRight : ctx.esValue b = some vb)
    (rightPrimitive : vb.tag < 5) :
    (ctx.bothNumbersEqual conversions a b).1 = true ↔
      MeetsByNumber (ctx.primitiveOf conversions) p vb := by
  obtain ⟨isAfter, isNumber⟩ := @jsToNumber_of_object conversions _ _ _ isLeft
  rw [bothNumbersEqual_iff, isAfter,
    jsToNumber_of_esValue (esValue_toPrimitive keeps a isRight rightPrimitive) rightPrimitive]
  constructor
  · rintro ⟨x, y, isX, isY, equal⟩
    obtain ⟨v, isPrimitive, z, isCode, meets⟩ := (isNumber y).mp ⟨x, isX, equal⟩
    exact ⟨v, isPrimitive, z, y, isCode, isY, meets⟩
  · rintro ⟨v, isPrimitive, z, y, isCode, isY, meets⟩
    obtain ⟨x, isX, equal⟩ := (isNumber y).mpr ⟨v, isPrimitive, z, isCode, meets⟩
    exact ⟨x, y, isX, isY, equal⟩

/-- and so are a primitive value and an object. -/
theorem bothNumbersEqual_right {q : ℕ} (isLeft : ctx.esValue a = some va)
    (leftPrimitive : va.tag < 5) (isRight : ctx.esValue b = some (.object q)) :
    (ctx.bothNumbersEqual conversions a b).1 = true ↔
      MeetsByNumber (ctx.primitiveOf conversions) q va := by
  obtain ⟨-, isNumber⟩ := @jsToNumber_of_object conversions _ _ _ isRight
  rw [bothNumbersEqual_iff, jsToNumber_of_esValue isLeft leftPrimitive]
  constructor
  · rintro ⟨x, y, isX, isY, equal⟩
    rw [numbersEqual_comm] at equal
    obtain ⟨v, isPrimitive, z, isCode, meets⟩ := (isNumber x).mp ⟨y, isY, equal⟩
    exact ⟨v, isPrimitive, z, x, isCode, isX, meets⟩
  · rintro ⟨v, isPrimitive, z, x, isCode, isX, meets⟩
    obtain ⟨y, isY, equal⟩ := (isNumber x).mpr ⟨v, isPrimitive, z, isCode, meets⟩
    exact ⟨x, y, isX, isY, (numbersEqual_comm x y).trans equal⟩

end Numbers

/-! ## The way of the functions -/

/-- The values are texts that a function takes for the same: by their bytes, or by their
units. -/
def SameTexts (bytewise : Bool) : EsValue → EsValue → Prop
  | .string s, .string t => if bytewise then s = t else textUnits s = textUnits t
  | _, _ => False

/-- When a function answers that two values are equal. -/
def CodeEqual (strict bytewise : Bool) (numbers : Prop) (a b : JSValue) (va vb : EsValue) : Prop :=
  a = b ∨ (strict = false ∧ va.IsNullish ∧ vb.IsNullish) ∨ SameTexts bytewise va vb ∨
    ¬(va.tag = 4 ∧ vb.tag = 4) ∧ (strict = true → va.tag = vb.tag) ∧ numbers

/-- The four functions. -/
inductive Equality
  | vmLoose | vmStrict | compareLoose | compareStrict

namespace Equality

/-- The answer of a function. -/
def holds (conversions : Conversions) (ctx : Context) (a b : JSValue) : Equality → Bool
  | .vmLoose => (ctx.vmLooseEq conversions a b).1
  | .vmStrict => (ctx.vmStrictEq conversions a b).1
  | .compareLoose => (ctx.compareLoose conversions a b).1
  | .compareStrict => (ctx.compareStrict conversions a b).1

/-- Whether a function is `===`. -/
def isStrict : Equality → Bool
  | .vmLoose | .compareLoose => false
  | .vmStrict | .compareStrict => true

/-- Whether a function compares texts by their bytes. -/
def isBytewise : Equality → Bool
  | .vmLoose | .vmStrict => true
  | .compareLoose | .compareStrict => false

end Equality

section Way

variable {conversions : Conversions} {ctx : Context} {a b : JSValue} {va vb : EsValue}

theorem stringBytes_of_esValue {v : JSValue} {value : EsValue} (isValue : ctx.esValue v = some value) :
    (∃ text, value = .string text ∧ ctx.stringBytes v = some text) ∨
      value.tag ≠ 4 ∧ ctx.stringBytes v = none := by
  cases v with
  | ptr address =>
      obtain ⟨number, stored, rfl⟩ | ⟨text, stored, rfl⟩ | ⟨obj, stored, rfl⟩ :=
        esValue_ptr_cases isValue
      · exact .inr ⟨by simp [EsValue.tag], by simp only [Context.stringBytes, stored]⟩
      · exact .inl ⟨text, rfl, by simp only [Context.stringBytes, stored]⟩
      · exact .inr ⟨by simp [EsValue.tag], by simp only [Context.stringBytes, stored]⟩
  | exception => cases isValue
  | _ =>
      cases isValue
      exact .inr ⟨by simp [EsValue.tag], rfl⟩

theorem typeTag_of_esValue {v : JSValue} {value : EsValue} (isValue : ctx.esValue v = some value) :
    ctx.typeTag v = value.tag := by
  cases v with
  | ptr address =>
      obtain ⟨number, stored, rfl⟩ | ⟨text, stored, rfl⟩ | ⟨obj, stored, rfl⟩ :=
        esValue_ptr_cases isValue <;>
      simp only [Context.typeTag, stored, EsValue.tag]
  | exception => cases isValue
  | _ =>
      cases isValue
      rfl

theorem isNullish_iff {v : JSValue} {value : EsValue} (isValue : ctx.esValue v = some value) :
    value.IsNullish ↔ v = .null ∨ v = .undefined := by
  cases v with
  | ptr address =>
      obtain ⟨number, -, rfl⟩ | ⟨text, -, rfl⟩ | ⟨obj, -, rfl⟩ := esValue_ptr_cases isValue <;>
      exact iff_of_false id (by rintro (same | same) <;> cases same)
  | exception => cases isValue
  | null => cases isValue; exact iff_of_true trivial (.inl rfl)
  | undefined => cases isValue; exact iff_of_true trivial (.inr rfl)
  | bool | int =>
      cases isValue; exact iff_of_false id (by rintro (same | same) <;> cases same)

/-- Beside identical words, `null` with `undefined` is all that is left of two of them. -/
theorem isNullAndUndefined_iff (isLeft : ctx.esValue a = some va)
    (isRight : ctx.esValue b = some vb) :
    a = b ∨ Context.isNullAndUndefined a b = true ↔ a = b ∨ va.IsNullish ∧ vb.IsNullish := by
  rw [isNullish_iff isLeft, isNullish_iff isRight, Context.isNullAndUndefined, decide_eq_true_iff]
  constructor
  · rintro (same | ⟨rfl, rfl⟩ | ⟨rfl, rfl⟩) <;> tauto
  · rintro (same | ⟨rfl | rfl, rfl | rfl⟩) <;> tauto

/-- Both values are texts, or one of them has no bytes. -/
theorem texts_cases (isLeft : ctx.esValue a = some va) (isRight : ctx.esValue b = some vb) :
    (∃ s t, va = .string s ∧ vb = .string t ∧ ctx.stringBytes a = some s ∧
      ctx.stringBytes b = some t) ∨
    ¬(va.tag = 4 ∧ vb.tag = 4) ∧ (ctx.stringBytes a = none ∨ ctx.stringBytes b = none) := by
  obtain ⟨s, isS, hasS⟩ | ⟨notText, hasNone⟩ := stringBytes_of_esValue isLeft
  · obtain ⟨t, isT, hasT⟩ | ⟨notText, hasNone⟩ := stringBytes_of_esValue isRight
    · exact .inl ⟨s, t, isS, isT, hasS, hasT⟩
    · exact .inr ⟨fun both => notText both.2, .inr hasNone⟩
  · exact .inr ⟨fun both => notText both.1, .inl hasNone⟩

theorem sameTexts_tag {bytewise : Bool} (same : SameTexts bytewise va vb) :
    va.tag = 4 ∧ vb.tag = 4 := by
  cases va <;> cases vb <;> first | exact same.elim | exact ⟨rfl, rfl⟩

/-- Texts that can be read. -/
def EsValue.IsReadable : EsValue → Prop
  | .string text => (textUnits text).isSome = true
  | _ => True

/-- `string_units_equal` of readable values. -/
theorem stringUnitsEqual_of_texts {s t : Bytes} (hasS : ctx.stringBytes a = some s)
    (hasT : ctx.stringBytes b = some t) (readS : (textUnits s).isSome = true)
    (readT : (textUnits t).isSome = true) :
    ctx.stringUnitsEqual a b = some (decide (textUnits s = textUnits t)) := by
  obtain ⟨us, isUs⟩ := Option.isSome_iff_exists.mp readS
  obtain ⟨ut, isUt⟩ := Option.isSome_iff_exists.mp readT
  simp only [Context.stringUnitsEqual, Context.stringUtf16Units, hasS, hasT, Option.bind_some,
    isUs, isUt, Option.map_some, Option.some.injEq]

theorem stringUnitsEqual_of_none (isNone : ctx.stringBytes a = none ∨ ctx.stringBytes b = none) :
    ctx.stringUnitsEqual a b = none := by
  obtain isNone | isNone := isNone
  · simp only [Context.stringUnitsEqual, Context.stringUtf16Units, isNone, Option.bind_none]
  · simp only [Context.stringUnitsEqual, Context.stringUtf16Units, isNone, Option.bind_none,
      Option.map_none, Option.bind_fun_none]

theorem vmLooseEq_of_none (isNone : ctx.stringBytes a = none ∨ ctx.stringBytes b = none) :
    ctx.vmLooseEq conversions a b =
      if a = b then (true, ctx)
      else if Context.isNullAndUndefined a b then (true, ctx)
      else ctx.bothNumbersEqual conversions a b := by
  obtain isNone | isNone := isNone
  · simp only [Context.vmLooseEq, isNone]
  · cases hasS : ctx.stringBytes a <;> simp only [Context.vmLooseEq, isNone, hasS]

theorem vmStrictEq_of_none (isNone : ctx.stringBytes a = none ∨ ctx.stringBytes b = none) :
    ctx.vmStrictEq conversions a b =
      if a = b then (true, ctx)
      else if ctx.typeTag a ≠ ctx.typeTag b then (false, ctx)
      else ctx.bothNumbersEqual conversions a b := by
  obtain isNone | isNone := isNone
  · simp only [Context.vmStrictEq, isNone]
  · cases hasS : ctx.stringBytes a <;> simp only [Context.vmStrictEq, isNone, hasS]

/-- What the four functions answer. -/
theorem Equality.holds_iff (e : Equality) (isLeft : ctx.esValue a = some va)
    (isRight : ctx.esValue b = some vb) (leftReadable : va.IsReadable)
    (rightReadable : vb.IsReadable) :
    e.holds conversions ctx a b = true ↔
      CodeEqual e.isStrict e.isBytewise ((ctx.bothNumbersEqual conversions a b).1 = true)
        a b va vb := by
  have nullish := isNullAndUndefined_iff isLeft isRight
  have tags : (ctx.typeTag a ≠ ctx.typeTag b) = (va.tag ≠ vb.tag) := by
    rw [typeTag_of_esValue isLeft, typeTag_of_esValue isRight]
  rw [CodeEqual]
  obtain ⟨s, t, rfl, rfl, hasS, hasT⟩ | ⟨notTexts, isNone⟩ := texts_cases isLeft isRight
  · have units := stringUnitsEqual_of_texts hasS hasT leftReadable rightReadable
    have sameText (same : a = b) : s = t := by
      rw [same, hasT] at hasS
      exact (Option.some.inj hasS).symm
    have notNullish (differ : a ≠ b) : ¬Context.isNullAndUndefined a b = true := fun isNullish =>
      (nullish.mp (.inr isNullish)).elim differ fun both => both.1
    by_cases same : a = b
    · refine iff_of_true ?_ (.inl same)
      obtain rfl := sameText same
      obtain rfl := same
      cases e <;>
        simp only [holds, Context.vmLooseEq, Context.vmStrictEq, Context.compareLoose,
          Context.compareStrict, units, if_true, decide_true, ite_self]
    · cases e <;>
        simp only [holds, Context.vmLooseEq, Context.vmStrictEq, Context.compareLoose,
          Context.compareStrict, units, hasS, hasT, same, notNullish same, if_false, isStrict,
          isBytewise, decide_eq_true_iff, SameTexts, EsValue.IsNullish, EsValue.tag, if_true,
          Bool.false_eq_true, and_self, not_true_eq_false, false_and, and_false, false_or, or_false]
  · have units := stringUnitsEqual_of_none isNone
    have notSame (bytewise : Bool) : ¬SameTexts bytewise va vb := fun same =>
      notTexts (sameTexts_tag same)
    by_cases same : a = b
    · refine iff_of_true ?_ (.inl same)
      cases e <;>
        simp only [holds, vmLooseEq_of_none isNone, vmStrictEq_of_none isNone, Context.compareLoose,
          Context.compareStrict, units, if_pos same, ite_self]
    · have nullishIff : Context.isNullAndUndefined a b = true ↔ va.IsNullish ∧ vb.IsNullish := by
        rwa [or_iff_right same, or_iff_right same] at nullish
      cases e with
      | vmStrict | compareStrict =>
          simp only [holds, vmStrictEq_of_none isNone, Context.compareStrict, units, if_false,
            tags, isStrict, same, notSame, notTexts, Bool.true_eq_false, false_and, false_or,
            not_false_eq_true, true_and, true_imp_iff]
          by_cases sameTag : va.tag = vb.tag
          · rw [if_neg (not_not.mpr sameTag), and_iff_right sameTag]
          · rw [if_pos sameTag]
            exact iff_of_false Bool.false_ne_true fun both => sameTag both.1
      | vmLoose | compareLoose =>
          simp only [holds, vmLooseEq_of_none isNone, Context.compareLoose, units, if_false,
            isStrict, same, notSame, notTexts, Bool.false_eq_true, false_or, not_false_eq_true,
            true_and, false_imp_iff, ← nullishIff]
          split
          case isTrue isNullish => exact iff_of_true rfl (.inl isNullish)
          case isFalse notNullish => rw [or_iff_right notNullish]

end Way

/-! ## Right answers -/

/-- Deviations of all four functions: a number that is `NaN` beside itself; two texts of
the same units and other bytes; two objects that have the same number. -/
inductive CommonDeviation (conversions : Conversions) (ctx : Context) (bytewise : Bool)
    (a b : JSValue) : EsValue → EsValue → Prop
  | nan {x y : F64} (same : a = b) (isNan : x.isNan = true) :
      CommonDeviation conversions ctx bytewise a b (.number x) (.number y)
  | units {s t : Bytes} (isBytewise : bytewise = true) (differ : s ≠ t)
      (same : textUnits s = textUnits t) :
      CommonDeviation conversions ctx bytewise a b (.string s) (.string t)
  | objects {p q : ℕ} {x y : F64} (differ : p ≠ q)
      (isLeft : (ctx.jsToNumber conversions a).1 = some x)
      (isRight : ((ctx.jsToNumber conversions a).2.jsToNumber conversions b).1 = some y)
      (equal : numbersEqual x y = true) :
      CommonDeviation conversions ctx bytewise a b (.object p) (.object q)

/-- Deviations of `==`: by numbers, of primitive values or of objects and primitive
values. -/
def LooseDeviation (primitive language : ℕ → Option EsValue) (va vb : EsValue) : Prop :=
  (PrimitiveDeviates va vb ∨ PrimitiveDeviates vb va) ∨
    ObjectDeviates primitive language va vb ∨ ObjectDeviates primitive language vb va

namespace Equality

/-- When a function differs from the language, whose primitive values `language` gives. -/
def Deviates (e : Equality) (conversions : Conversions) (ctx : Context)
    (language : ℕ → Option EsValue) (a b : JSValue) (va vb : EsValue) : Prop :=
  CommonDeviation conversions ctx e.isBytewise a b va vb ∨
    e.isStrict = false ∧ LooseDeviation (ctx.primitiveOf conversions) language va vb

/-- The equality of the language that a function is. -/
def Standard (e : Equality) (language : ℕ → Option EsValue) (va vb : EsValue) : Prop :=
  if e.isStrict then va.StrictlyEqual vb else EsValue.LooselyEqual language va vb

end Equality

section Types

variable {a b : EsValue}

theorem strictlyEqual_tag (equal : a.StrictlyEqual b) : a.tag = b.tag := by
  cases a <;> cases b <;> first | rfl | exact equal.elim

theorem commonDeviation_tag {conversions : Conversions} {ctx : Context} {bytewise : Bool}
    {x y : JSValue} (deviates : CommonDeviation conversions ctx bytewise x y a b) :
    a.tag = b.tag ∧ 3 ≤ a.tag := by
  cases deviates <;> simp [EsValue.tag]

theorem codeNumbersMeet_bool (x y : Bool) :
    EsValue.CodeNumbersMeet (.bool x) (.bool y) ↔ x = y :=
  (EsValue.codeNumbersMeet_iff rfl rfl).trans (numbersEqual_boolNumber x y)

/-- Values of one type are equal loosely when they are strictly. -/
theorem looselyEqual_iff_strictlyEqual (primitive : ℕ → Option EsValue) (sameTag : a.tag = b.tag) :
    EsValue.LooselyEqual primitive a b ↔ a.StrictlyEqual b := by
  cases a with
  | bool x =>
      cases b with
      | bool y =>
          exact (EsValue.numbersMeet_iff (fun _ => Iff.rfl) (fun _ => Iff.rfl)).trans
            (numbersEqual_boolNumber x y)
      | _ => exact absurd sameTag (by simp [EsValue.tag])
  | number x =>
      cases b with
      | number y => exact EsValue.numbersMeet_iff (fun _ => Iff.rfl) (fun _ => Iff.rfl)
      | _ => exact absurd sameTag (by simp [EsValue.tag])
  | _ =>
      cases b <;>
        first
        | exact Iff.rfl
        | exact absurd sameTag (by simp [EsValue.tag])

/-- Values of one type do not deviate by their numbers. -/
theorem not_looseDeviation (primitive language : ℕ → Option EsValue) (sameTag : a.tag = b.tag) :
    ¬LooseDeviation primitive language a b := by
  have notObject {a b : EsValue} (sameTag : a.tag = b.tag) :
      ¬ObjectDeviates primitive language a b := by
    intro deviates
    cases a with
    | object p =>
        cases b with
        | object q => exact deviates
        | _ => exact absurd sameTag (by simp [EsValue.tag])
    | _ => exact deviates
  rintro ((isLess | isLess) | onObject | onObject)
  · exact (EsValue.tag_lt_of_primitiveDeviates isLess).ne sameTag
  · exact (EsValue.tag_lt_of_primitiveDeviates isLess).ne' sameTag
  · exact notObject sameTag onObject
  · exact notObject sameTag.symm onObject

/-- The primitive value of an object, compared by its number with a value beside `null` and
`undefined`. -/
theorem codeNumbersMeet_iff_of_value {v : EsValue} (isPrimitive : b.tag < 5)
    (notNullish : 1 < b.tag) :
    (v.CodeNumbersMeet b ↔ EsValue.PrimitivesEqual v b) ↔
      ¬((∃ s t, v = .string s ∧ b = .string t ∧
          ¬(numbersEqual (stringToNumber s) (stringToNumber t) = true ↔
            textUnits s = textUnits t)) ∨
        (PrimitiveDeviates v b ∨ PrimitiveDeviates b v)) := by
  have notTexts (differ : v.tag ≠ b.tag) : ¬∃ s t, v = .string s ∧ b = .string t ∧
      ¬(numbersEqual (stringToNumber s) (stringToNumber t) = true ↔ textUnits s = textUnits t) := by
    rintro ⟨s, t, rfl, rfl, -⟩
    exact differ rfl
  by_cases sameTag : v.tag = b.tag
  · have notLess : ¬(PrimitiveDeviates v b ∨ PrimitiveDeviates b v) := fun isLess =>
      not_looseDeviation (fun _ => none) (fun _ => none) sameTag (.inl isLess)
    rw [or_iff_left notLess,
      ← EsValue.looselyEqual_iff (fun _ => none) (sameTag ▸ isPrimitive) isPrimitive,
      looselyEqual_iff_strictlyEqual _ sameTag]
    cases b with
    | undefined => exact absurd notNullish (by simp [EsValue.tag])
    | null => exact absurd notNullish (by simp [EsValue.tag])
    | object q => exact absurd isPrimitive (lt_irrefl 5)
    | bool y =>
        cases v with
        | bool x =>
            refine iff_of_true (codeNumbersMeet_bool x y) ?_
            rintro ⟨s, t, isText, -⟩
            cases isText
        | _ => exact absurd sameTag (by simp [EsValue.tag])
    | number y =>
        cases v with
        | number x =>
            refine iff_of_true (EsValue.codeNumbersMeet_iff rfl rfl) ?_
            rintro ⟨s, t, isText, -⟩
            cases isText
        | _ => exact absurd sameTag (by simp [EsValue.tag])
    | string t =>
        cases v with
        | string s =>
            rw [EsValue.codeNumbersMeet_iff rfl rfl]
            constructor
            · rintro right ⟨s, t, isLeft, isRight, wrong⟩
              cases isLeft
              cases isRight
              exact wrong right
            · intro notWrong
              by_contra wrong
              exact notWrong ⟨s, t, rfl, rfl, wrong⟩
        | _ => exact absurd sameTag (by simp [EsValue.tag])
  · rw [or_iff_right (notTexts sameTag)]
    by_cases leftPrimitive : v.tag < 5
    · exact EsValue.codeNumbersMeet_iff_primitivesEqual sameTag leftPrimitive isPrimitive
        (.inr notNullish)
    · obtain ⟨q, rfl⟩ := EsValue.exists_object leftPrimitive
      refine iff_of_true (iff_of_false ?_ ?_) ?_
      · rintro ⟨x, y, isNone, -⟩
        cases isNone
      · cases b <;> exact id
      · rintro (isLess | isLess)
        · exact isLess
        · cases b <;> exact isLess

/-- An object and a value beside `null` and `undefined`. -/
theorem valueDeviates_iff (language : ℕ → Option EsValue) (p : ℕ)
    (isPrimitive : b.tag < 5) (notNullish : 1 < b.tag) :
    (MeetsByNumber language p b ↔ ∃ v, language p = some v ∧ EsValue.PrimitivesEqual v b) ↔
      ¬ValueDeviates language p b := by
  rw [MeetsByNumber, ValueDeviates]
  cases isValue : language p with
  | none => simp only [reduceCtorEq, false_and, exists_false, or_self, not_false_eq_true]
  | some v =>
      simp only [Option.some.injEq, exists_eq_left']
      rw [codeNumbersMeet_iff_of_value isPrimitive notNullish]

/-- What the code makes of an object is right when neither mistake is made, or both are. -/
theorem meetsByNumber_iff (primitive language : ℕ → Option EsValue) (p : ℕ)
    (isPrimitive : b.tag < 5) (notNullish : 1 < b.tag) :
    (MeetsByNumber primitive p b ↔ ∃ v, language p = some v ∧ EsValue.PrimitivesEqual v b) ↔
      ¬Xor (¬(MeetsByNumber primitive p b ↔ MeetsByNumber language p b))
        (ValueDeviates language p b) := by
  have isWrong : ValueDeviates language p b ↔
      ¬(MeetsByNumber language p b ↔ ∃ v, language p = some v ∧ EsValue.PrimitivesEqual v b) := by
    rw [valueDeviates_iff language p isPrimitive notNullish, not_not]
  rw [not_xor, isWrong, not_iff_not]
  by_cases meets : MeetsByNumber language p b
  · rw [iff_true_right meets, iff_true_left meets]
  · rw [iff_false_right meets, iff_false_left meets, not_iff_not]

/-- An object and a primitive value. -/
theorem objectDeviates_iff (primitive language : ℕ → Option EsValue) (p : ℕ)
    (isPrimitive : b.tag < 5) :
    (MeetsByNumber primitive p b ↔ EsValue.LooselyEqual language (.object p) b) ↔
      ¬ObjectDeviates primitive language (.object p) b := by
  rw [EsValue.looselyEqual_object_iff language p isPrimitive]
  cases b with
  | undefined =>
      have notMeets (primitive : ℕ → Option EsValue) : ¬MeetsByNumber primitive p .undefined := by
        rintro ⟨v, -, meet⟩
        exact EsValue.not_codeNumbersMeet_undefined v meet.symm
      refine iff_of_true (iff_of_false (notMeets primitive) fun both => both.1 trivial) ?_
      rintro (⟨differ, -⟩ | ⟨⟨s, t, -, isText, -⟩ | ⟨v, -, isLess | isLess⟩, -⟩)
      · exact differ (iff_of_false (notMeets primitive) (notMeets language))
      · cases isText
      · cases v <;> exact isLess
      · exact isLess
  | null =>
      exact ⟨fun same deviates => (same.mp deviates).1 trivial,
        fun right => iff_of_false right fun both => both.1 trivial⟩
  | object q => exact absurd isPrimitive (lt_irrefl 5)
  | bool _ | number _ | string _ =>
      rw [and_iff_right (show ¬EsValue.IsNullish _ from id)]
      exact meetsByNumber_iff primitive language p isPrimitive (by simp [EsValue.tag])

end Types

section Main

variable {conversions : Conversions} {ctx : Context} {a b : JSValue} {va vb : EsValue}

/-- The word of a value that is no pointer. -/
theorem word_of_esValue {v : JSValue} {value : EsValue} (isValue : ctx.esValue v = some value) :
    (value = .undefined → v = .undefined) ∧ (value = .null → v = .null) ∧
      ∀ x, value = .bool x → v = .bool x := by
  cases v with
  | ptr address =>
      obtain ⟨number, -, rfl⟩ | ⟨text, -, rfl⟩ | ⟨obj, -, rfl⟩ := esValue_ptr_cases isValue <;>
      exact ⟨by rintro ⟨⟩, by rintro ⟨⟩, by rintro x ⟨⟩⟩
  | exception => cases isValue
  | undefined => cases isValue; exact ⟨fun _ => rfl, by rintro ⟨⟩, by rintro x ⟨⟩⟩
  | null => cases isValue; exact ⟨by rintro ⟨⟩, fun _ => rfl, by rintro x ⟨⟩⟩
  | bool y => cases isValue; exact ⟨by rintro ⟨⟩, by rintro ⟨⟩, by rintro x ⟨⟩; rfl⟩
  | int n => cases isValue; exact ⟨by rintro ⟨⟩, by rintro ⟨⟩, by rintro x ⟨⟩⟩

/-- The same word is the same value. -/
theorem value_eq_of_eq (isLeft : ctx.esValue a = some va) (isRight : ctx.esValue b = some vb)
    (same : a = b) : va = vb := by
  rw [same, isRight] at isLeft
  exact (Option.some.inj isLeft).symm

/-- Values of one type that are neither texts nor `null` or `undefined`. -/
theorem codeEqual_iff_of_numbers {strict bytewise : Bool} {numbers : Prop}
    (sameTag : va.tag = vb.tag) (notNullish : ¬va.IsNullish) (notText : va.tag ≠ 4) :
    CodeEqual strict bytewise numbers a b va vb ↔ a = b ∨ numbers := by
  have notSame : ¬SameTexts bytewise va vb := fun same => notText (sameTexts_tag same).1
  have notBoth : ¬(va.tag = 4 ∧ vb.tag = 4) := fun both => notText both.1
  have notNullishes : ¬(strict = false ∧ va.IsNullish ∧ vb.IsNullish) := fun all =>
    notNullish all.2.1
  rw [CodeEqual, or_iff_right notNullishes, or_iff_right notSame, and_iff_right notBoth,
    and_iff_right fun _ => sameTag]

/-- Two texts. -/
theorem codeEqual_iff_of_texts {strict bytewise : Bool} {numbers : Prop} {s t : Bytes}
    (isLeft : ctx.esValue a = some (.string s)) (isRight : ctx.esValue b = some (.string t)) :
    CodeEqual strict bytewise numbers a b (.string s) (.string t) ↔
      if bytewise then s = t else textUnits s = textUnits t := by
  have bytes : a = b → if bytewise then s = t else textUnits s = textUnits t := fun same => by
    cases value_eq_of_eq isLeft isRight same
    cases bytewise <;> rfl
  simp only [CodeEqual, SameTexts, EsValue.IsNullish, EsValue.tag, and_self, and_false, false_or,
    not_true_eq_false, false_and, or_false]
  exact or_iff_right_of_imp bytes

/-- Values of one type. -/
theorem codeEqual_iff_of_tag (strict bytewise : Bool) (isLeft : ctx.esValue a = some va)
    (isRight : ctx.esValue b = some vb) (sameTag : va.tag = vb.tag) :
    (CodeEqual strict bytewise ((ctx.bothNumbersEqual conversions a b).1 = true) a b va vb ↔
        va.StrictlyEqual vb) ↔
      ¬CommonDeviation conversions ctx bytewise a b va vb := by
  have wordLeft := word_of_esValue isLeft
  have wordRight := word_of_esValue isRight
  cases va with
  | undefined =>
      cases vb with
      | undefined =>
          refine iff_of_true (iff_of_true (.inl ?_) trivial) (by rintro ⟨⟩)
          rw [wordLeft.1 rfl, wordRight.1 rfl]
      | _ => exact absurd sameTag (by simp [EsValue.tag])
  | null =>
      cases vb with
      | null =>
          refine iff_of_true (iff_of_true (.inl ?_) trivial) (by rintro ⟨⟩)
          rw [wordLeft.2.1 rfl, wordRight.2.1 rfl]
      | _ => exact absurd sameTag (by simp [EsValue.tag])
  | bool x =>
      cases vb with
      | bool y =>
          refine iff_of_true ?_ (by rintro ⟨⟩)
          rw [codeEqual_iff_of_numbers sameTag id (by simp [EsValue.tag]),
            bothNumbersEqual_primitives isLeft isRight (by simp [EsValue.tag])
              (by simp [EsValue.tag]), codeNumbersMeet_bool, wordLeft.2.2 x rfl,
            wordRight.2.2 y rfl]
          exact or_iff_right_of_imp fun same => JSValue.bool.inj same
      | _ => exact absurd sameTag (by simp [EsValue.tag])
  | number x =>
      cases vb with
      | number y =>
          rw [codeEqual_iff_of_numbers sameTag id (by simp [EsValue.tag]),
            bothNumbersEqual_primitives isLeft isRight (by simp [EsValue.tag])
              (by simp [EsValue.tag]), EsValue.codeNumbersMeet_iff rfl rfl]
          constructor
          · intro right deviates
            cases deviates with
            | nan same isNan =>
                have equal : numbersEqual x y = true := right.mp (.inl same)
                rw [((numbersEqual_iff x y).mp equal).1] at isNan
                cases isNan
          · intro notNan
            refine or_iff_right_of_imp fun same => ?_
            cases value_eq_of_eq isLeft isRight same
            rw [numbersEqual_self_iff]
            exact Bool.eq_false_iff.mpr fun isNan => notNan (.nan same isNan)
      | _ => exact absurd sameTag (by simp [EsValue.tag])
  | string s =>
      cases vb with
      | string t =>
          rw [codeEqual_iff_of_texts isLeft isRight]
          cases bytewise with
          | false =>
              refine iff_of_true Iff.rfl fun deviates => ?_
              cases deviates with
              | units isBytewise => cases isBytewise
          | true =>
              constructor
              · intro right deviates
                cases deviates with
                | units _ differ same => exact differ (right.mpr same)
              · intro notUnits
                refine ⟨fun same => congrArg textUnits same, fun same => ?_⟩
                by_contra differ
                exact notUnits (.units rfl differ same)
      | _ => exact absurd sameTag (by simp [EsValue.tag])
  | object p =>
      cases vb with
      | object q =>
          rw [codeEqual_iff_of_numbers sameTag id (by simp [EsValue.tag]), bothNumbersEqual_iff,
            (eq_ptr_of_object isLeft).1, (eq_ptr_of_object isRight).1]
          constructor
          · intro right deviates
            cases deviates with
            | objects differ isX isY equal =>
                exact differ (right.mp (.inr ⟨_, _, isX, isY, equal⟩))
          · intro notObjects
            constructor
            · rintro (same | ⟨x, y, isX, isY, equal⟩)
              · exact JSValue.ptr.inj same
              · by_contra differ
                exact notObjects (.objects differ isX isY equal)
            · exact fun same => .inl (congrArg JSValue.ptr same)
      | _ => exact absurd sameTag (by simp [EsValue.tag])

/-- Values of different types are not equal strictly. -/
theorem not_codeEqual_of_tag (bytewise : Bool) (numbers : Prop) (isLeft : ctx.esValue a = some va)
    (isRight : ctx.esValue b = some vb) (differ : va.tag ≠ vb.tag) :
    ¬CodeEqual true bytewise numbers a b va vb := by
  rintro (same | ⟨isFalse, -⟩ | same | ⟨-, sameTag, -⟩)
  · exact differ (congrArg EsValue.tag (value_eq_of_eq isLeft isRight same))
  · cases isFalse
  · exact differ ((sameTexts_tag same).1.trans (sameTexts_tag same).2.symm)
  · exact differ (sameTag rfl)

/-- Values of different types, loosely. -/
theorem codeEqual_loose_iff {bytewise : Bool} {numbers : Prop} (isLeft : ctx.esValue a = some va)
    (isRight : ctx.esValue b = some vb) (differ : va.tag ≠ vb.tag) :
    CodeEqual false bytewise numbers a b va vb ↔ va.IsNullish ∧ vb.IsNullish ∨ numbers := by
  have notSame : ¬a = b := fun same =>
    differ (congrArg EsValue.tag (value_eq_of_eq isLeft isRight same))
  have notTexts : ¬SameTexts bytewise va vb := fun same =>
    differ ((sameTexts_tag same).1.trans (sameTexts_tag same).2.symm)
  have notBoth : ¬(va.tag = 4 ∧ vb.tag = 4) := fun both => differ (both.1.trans both.2.symm)
  simp only [CodeEqual, notSame, notTexts, notBoth, false_or, true_and, not_false_eq_true,
    Bool.false_eq_true, false_imp_iff]

theorem isNullish_of_tag {value : EsValue} (isLess : value.tag ≤ 1) : value.IsNullish := by
  cases value with
  | undefined | null => trivial
  | _ => exact absurd isLess (by simp [EsValue.tag])

/-- Primitive values of different types, loosely. -/
theorem codeEqual_loose_iff_of_primitives (bytewise : Bool) (isLeft : ctx.esValue a = some va)
    (isRight : ctx.esValue b = some vb) (differ : va.tag ≠ vb.tag) (leftPrimitive : va.tag < 5)
    (rightPrimitive : vb.tag < 5) :
    (CodeEqual false bytewise ((ctx.bothNumbersEqual conversions a b).1 = true) a b va vb ↔
        EsValue.PrimitivesEqual va vb) ↔
      ¬(PrimitiveDeviates va vb ∨ PrimitiveDeviates vb va) := by
  rw [codeEqual_loose_iff isLeft isRight differ,
    bothNumbersEqual_primitives isLeft isRight leftPrimitive rightPrimitive]
  by_cases bothNullish : va.IsNullish ∧ vb.IsNullish
  · refine iff_of_true (iff_of_true (.inl bothNullish) ?_) ?_
    · cases va <;> cases vb <;> first | exact bothNullish.1.elim | exact bothNullish.2
    · cases va <;> cases vb <;>
        first | exact bothNullish.1.elim | exact bothNullish.2.elim | exact or_self_iff.mp
  · rw [or_iff_right bothNullish]
    refine EsValue.codeNumbersMeet_iff_primitivesEqual differ leftPrimitive rightPrimitive ?_
    by_contra notGreater
    exact bothNullish ⟨isNullish_of_tag (by omega), isNullish_of_tag (by omega)⟩

/-- Values of different types, loosely. -/
theorem codeEqual_loose_iff_of_tag (keeps : conversions.Keeps) (bytewise : Bool)
    (language : ℕ → Option EsValue)
    (isLeft : ctx.esValue a = some va) (isRight : ctx.esValue b = some vb)
    (differ : va.tag ≠ vb.tag) :
    (CodeEqual false bytewise ((ctx.bothNumbersEqual conversions a b).1 = true) a b va vb ↔
        EsValue.LooselyEqual language va vb) ↔
      ¬LooseDeviation (ctx.primitiveOf conversions) language va vb := by
  have notPrimitive {u v : EsValue} :
      u.tag < 5 → ¬ObjectDeviates (ctx.primitiveOf conversions) language u v := by
    intro isPrimitive deviates
    cases u with
    | object p => exact lt_irrefl 5 isPrimitive
    | _ => exact deviates
  have notObject {u : EsValue} {p : ℕ} :
      ¬(PrimitiveDeviates (.object p) u ∨ PrimitiveDeviates u (.object p)) := by
    rintro (isLess | isLess)
    · exact isLess
    · cases u <;> exact isLess
  rw [LooseDeviation]
  by_cases leftPrimitive : va.tag < 5
  · by_cases rightPrimitive : vb.tag < 5
    · rw [EsValue.looselyEqual_iff _ leftPrimitive rightPrimitive,
        codeEqual_loose_iff_of_primitives bytewise isLeft isRight differ leftPrimitive
          rightPrimitive,
        or_iff_left (not_or.mpr ⟨notPrimitive leftPrimitive, notPrimitive rightPrimitive⟩)]
    · obtain ⟨q, rfl⟩ := EsValue.exists_object rightPrimitive
      rw [codeEqual_loose_iff isLeft isRight differ, or_iff_right fun both => both.2,
        bothNumbersEqual_right isLeft leftPrimitive isRight, EsValue.looselyEqual_comm,
        objectDeviates_iff _ language q leftPrimitive, or_comm, or_iff_right (notPrimitive leftPrimitive),
        or_iff_left fun isLess => notObject isLess.symm]
  · obtain ⟨p, rfl⟩ := EsValue.exists_object leftPrimitive
    have rightPrimitive : vb.tag < 5 := by
      by_contra isObject
      obtain ⟨q, rfl⟩ := EsValue.exists_object isObject
      exact differ rfl
    rw [codeEqual_loose_iff isLeft isRight differ, or_iff_right fun both => both.1,
      bothNumbersEqual_left keeps isLeft isRight rightPrimitive,
      objectDeviates_iff _ language p rightPrimitive, or_iff_right notObject,
      or_iff_left (notPrimitive rightPrimitive)]

/-- A function answers as the language does exactly when it does not deviate. -/
theorem Equality.holds_iff_standard (e : Equality) (keeps : conversions.Keeps)
    (language : ℕ → Option EsValue) (isLeft : ctx.esValue a = some va) (isRight : ctx.esValue b = some vb)
    (leftReadable : va.IsReadable) (rightReadable : vb.IsReadable) :
    (e.holds conversions ctx a b = true ↔ e.Standard language va vb) ↔
      ¬e.Deviates conversions ctx language a b va vb := by
  rw [e.holds_iff isLeft isRight leftReadable rightReadable, Equality.Standard, Equality.Deviates]
  by_cases sameTag : va.tag = vb.tag
  · rw [or_iff_left fun deviates => not_looseDeviation _ _ sameTag deviates.2,
      looselyEqual_iff_strictlyEqual _ sameTag, ite_self]
    exact codeEqual_iff_of_tag _ _ isLeft isRight sameTag
  · rw [or_iff_right fun deviates => sameTag (commonDeviation_tag deviates).1]
    cases e.isStrict with
    | true =>
        refine iff_of_true (iff_of_false (not_codeEqual_of_tag _ _ isLeft isRight sameTag)
          fun equal => sameTag (strictlyEqual_tag equal)) fun deviates => ?_
        cases deviates.1
    | false =>
        rw [and_iff_right rfl]
        exact codeEqual_loose_iff_of_tag keeps _ language isLeft isRight sameTag

theorem plainConversions_keeps : plainConversions.Keeps where
  float := fun _ _ _ _ _ stored => stored
  string := fun _ _ _ _ _ stored => stored

end Main

end Script
end MuonJs
