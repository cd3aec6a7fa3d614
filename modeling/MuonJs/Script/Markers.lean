import MuonJs.Script.Json
import MuonJs.Script.Properties
import MuonJs.Script.Replacing

/-!
# Markers of builtins

A builtin function is a string with a reserved name, `__builtin_` before it and `__`
behind it.  The places of the virtual machine that look for a marker read any string,
also one that a script got as data: the receiver of a property access, a called value
and the replacement of a text.  What they do with a string is compared with what they
do with one that is no marker.

A slice out of the range of its buffer is a panic: there is no outcome.
-/

namespace MuonJs
namespace Script
namespace Markers

open Cache (Bytes F64 asBytes fromUtf8 encode)
open Replacing (Replacement Captures stringReplaceNonregex stringReplaceRegex)

/-! ## Values and builtins -/

/-- A value, as the functions below see it: a number that is no tagged integer, the
bytes of a string, or an object. -/
inductive Value
  | undefined
  | null
  | bool (value : Bool)
  | int (value : Int32)
  | number (value : F64)
  | string (bytes : Bytes)
  | object (id : ℕ)
  deriving DecidableEq

/-- The name of a builtin as a marker. -/
def markerOf (name : String) : Bytes := asBytes "__builtin_" ++ asBytes name ++ asBytes "__"

/-- The markers that `call_builtin_global_marker` knows. -/
def globalMarkers : List String :=
  ["Number", "String", "Boolean", "parseInt", "parseFloat", "isNaN", "isFinite", "eval"]

/-- The markers that `call_builtin_method` knows. -/
def methodMarkers : List String :=
  ["eval", "String", "Number", "Boolean", "Date_now", "console_log", "Object_toString",
    "Object_setPrototypeOf", "string_charAt", "string_toUpperCase", "string_toLowerCase",
    "string_toLocaleUpperCase", "string_toLocaleLowerCase", "string_normalize",
    "string_substring", "string_substr", "string_slice", "string_indexOf",
    "string_lastIndexOf", "string_split", "string_concat", "string_trim", "string_trimStart",
    "string_trimEnd", "string_startsWith", "string_endsWith", "string_includes",
    "string_repeat", "string_match", "string_matchAll", "string_search", "string_replace",
    "string_replaceAll", "string_charCodeAt", "string_codePointAt", "number_toFixed",
    "number_toPrecision", "number_toExponential", "number_toString", "regexp_test",
    "regexp_exec", "parseInt", "parseFloat", "Number_isInteger", "Number_isNaN",
    "Number_isFinite", "Number_isSafeInteger", "Math_floor", "Math_ceil", "Math_round",
    "Math_abs", "Math_max", "Math_min", "Math_sqrt", "Math_pow", "Math_sin", "Math_cos",
    "Math_tan", "Math_asin", "Math_acos", "Math_atan", "Math_atan2", "Math_exp", "Math_log",
    "Math_log2", "Math_log10", "Math_fround", "Math_imul", "Math_clz32", "array_push",
    "array_pop", "array_join", "typedarray_toString", "typedarray_set",
    "typedarray_subarray", "array_slice", "array_splice", "array_indexOf",
    "array_lastIndexOf", "array_forEach", "array_map", "array_filter", "array_reduce",
    "array_reduceRight", "array_every", "array_some", "array_find", "array_findIndex",
    "JSON_stringify", "JSON_parse", "Error", "TypeError", "RangeError", "SyntaxError",
    "ReferenceError", "Object_keys", "Array_isArray"]

/-- What the builtins do once they are found, with the state `σ` that they change: the
calls of the two tables, `Number` of one argument, the call of an object that is no
string, whether an object is a function, and the text of a value that is no string. -/
structure Builtins (σ : Type) where
  global : Bytes → List Value → σ → Value × σ
  method : Bytes → Value → List Value → σ → Option Value × σ
  toNumber : Value → σ → Option Value × σ
  callObject : ℕ → Value → List Value → σ → Option Value × σ
  isFunctionObject : ℕ → Bool
  display : Value → List Char

variable {σ : Type} (builtins : Builtins σ)

/-! ## Properties -/

/-- The test of `GetProp` for a marker. -/
def isMarker (obj : Bytes) : Bool :=
  13 ≤ obj.length && (asBytes "__builtin_").isPrefixOf obj && (asBytes "__").isSuffixOf obj

/-- The constants of `Math`. -/
def mathConstants : List (Bytes × F64) :=
  [(asBytes "PI", ⟨0x400921fb54442d18⟩), (asBytes "E", ⟨0x4005bf0a8b145769⟩),
    (asBytes "LN2", ⟨0x3fe62e42fefa39ef⟩), (asBytes "LN10", ⟨0x40026bb1bbb55516⟩),
    (asBytes "LOG2E", ⟨0x3ff71547652b82fe⟩), (asBytes "LOG10E", ⟨0x3fdbcb7b1526e50e⟩),
    (asBytes "SQRT2", ⟨0x3ff6a09e667f3bcd⟩)]

/-- The copy of the inner name in `base_buf`, which has 32 bytes. -/
def baseBuf (obj : Bytes) (baseLen : ℕ) : Bytes :=
  if 0 < baseLen ∧ baseLen ≤ 32 then
    (obj.drop 10).take baseLen ++ List.replicate (32 - baseLen) 0
  else List.replicate 32 0

/-- `resolve_builtin_marker_prop`. -/
def resolveBuiltinMarkerProp (obj prop : Bytes) : Option Value :=
  let baseLen := if 12 ≤ obj.length then obj.length - 12 else 0
  let base := baseBuf obj baseLen
  match (if baseLen = 4 ∧ base.take 4 = asBytes "Math" then mathConstants.lookup prop else none) with
  | some constant => some (.number constant)
  | none =>
      if 10 + baseLen + 1 + prop.length + 2 ≤ 80 ∧ 0 < baseLen then
        if baseLen ≤ base.length then
          some (.string (asBytes "__builtin_" ++ base.take baseLen ++ [95] ++ prop ++ asBytes "__"))
        else none
      else some .undefined

/-- `resolve_string_method_marker`. -/
def resolveStringMethodMarker (method : Bytes) : Value :=
  if 17 + method.length + 2 ≤ 80 then
    .string (asBytes "__builtin_string_" ++ method ++ asBytes "__")
  else .undefined

/-- `js_get_property_str` on a string: it has no accessors and no property but its
length. -/
def stringProperty (obj name : Bytes) : Value :=
  if name = asBytes "length" then .int (Int32.ofNat obj.length) else .undefined

/-- `GetProp` on a string with a string as the key. -/
def getProp (obj key : Bytes) : Option Value :=
  if isMarker obj then resolveBuiltinMarkerProp obj key
  else
    let found := stringProperty obj (if (fromUtf8 key).isSome then key else [])
    if found = .undefined then some (resolveStringMethodMarker key) else some found

/-! ## Functions -/

/-- `js_is_function`. -/
def jsIsFunction : Value → Bool
  | .object id => builtins.isFunctionObject id
  | .string bytes => (fromUtf8 bytes).isSome && (asBytes "__builtin_").isPrefixOf bytes
  | _ => false

/-- `Typeof`. -/
def typeof : Value → String
  | .bool _ => "boolean"
  | .int _ | .number _ => "number"
  | .string _ => "string"
  | .undefined => "undefined"
  | .null => "object"
  | .object id => if builtins.isFunctionObject id then "function" else "object"

/-- `js_type_tag`, which strict equality compares. -/
def jsTypeTag : Value → ℕ
  | .undefined => 0
  | .null => 1
  | .bool _ => 2
  | .int _ | .number _ => 3
  | .string _ => 4
  | .object _ => 5

/-- `js_to_primitive`, for the operators: a value that is no object is one. -/
def jsToPrimitive (ofObject : ℕ → Option Value) : Value → Option Value
  | .object id => ofObject id
  | value => some value

/-- The marker is one of a table. -/
def knows (names : List String) (marker : Bytes) : Bool := names.any fun name => markerOf name = marker

/-- `call_builtin_global_marker`. -/
def callBuiltinGlobalMarker (marker : Bytes) (args : List Value) (state : σ) :
    Option Value × σ :=
  if knows globalMarkers marker then
    let outcome := builtins.global marker args state
    (some outcome.1, outcome.2)
  else (none, state)

/-- `call_builtin_method`, for a string. -/
def callBuiltinMethod (method : Bytes) (this : Value) (args : List Value) (state : σ) :
    Option Value × σ :=
  if 64 < method.length then (none, state)
  else if (fromUtf8 method).isSome && knows methodMarkers method then
    builtins.method method this args state
  else (none, state)

/-- `call_function_value`; where it gives nothing, the virtual machine throws a
`TypeError`. -/
def callFunctionValue (func this : Value) (args : List Value) (state : σ) : Option Value × σ :=
  match func with
  | .string bytes =>
      if bytes.length ≤ 64 ∧ (fromUtf8 bytes).isSome then
        match callBuiltinGlobalMarker builtins bytes args state with
        | (some result, state) => (some result, state)
        | (none, state) => callBuiltinMethod builtins bytes this args state
      else (none, state)
  | .object id => builtins.callObject id this args state
  | _ => (none, state)

/-- `Call`, with its short cut for `Number` of one argument. -/
def call (func this : Value) (args : List Value) (state : σ) : Option Value × σ :=
  match args with
  | [arg] =>
      if func = .string (markerOf "Number") then builtins.toNumber arg state
      else callFunctionValue builtins func this [arg] state
  | args => callFunctionValue builtins func this args state

/-- `GetProp` and `CallMethod` on a string. -/
def callMethod (obj key : Bytes) (args : List Value) (state : σ) :
    Option (Option Value × σ) :=
  (getProp obj key).map fun func => callFunctionValue builtins func (.string obj) args state

/-! ## Replacements -/

/-- `value_to_string`. -/
def valueToString : Value → List Char
  | .string bytes => ((fromUtf8 bytes).map String.toList).getD []
  | value => builtins.display value

/-- The arguments of a replacement function. -/
def callArgs (args : Replacing.ReplaceArgs) : List Value :=
  .string (encode args.matched) ::
    (args.captures.map fun text => text.elim .undefined fun text => .string (encode text)) ++
      [.int (Int32.ofInt args.position), .string (encode args.input)]

/-- What `string_replace_nonregex` and `string_replace_regex` take a value for. -/
def asReplacement (value : Value) : Replacement σ :=
  if jsIsFunction builtins value then
    .function fun args state =>
      let outcome := callFunctionValue builtins value .undefined (callArgs args) state
      (outcome.1.elim [] (valueToString builtins), outcome.2)
  else .text (valueToString builtins value)

/-! ## Strings as data -/

/-- What `GetProp` gives on a string that is no marker. -/
def dataProperty (length : ℕ) (key : Bytes) : Value :=
  if key = asBytes "length" then .int (Int32.ofNat length) else resolveStringMethodMarker key

/-- The string behaves as data wherever the virtual machine uses it: it never panics,
has the length and the methods of a string, is no function, and replaces as a text. -/
structure BehavesAsData (d : Bytes) : Prop where
  property : ∀ key, getProp d key = some (dataProperty d.length key)
  method : ∀ key args state, callMethod builtins d key args state =
    some (callFunctionValue builtins (dataProperty d.length key) (.string d) args state)
  call : ∀ this args state, call builtins (.string d) this args state = (none, state)
  typeof : typeof builtins (.string d) = "string"
  operand : jsTypeTag (.string d) = 4 ∧
    ∀ ofObject, jsToPrimitive ofObject (.string d) = some (.string d)
  text : ∀ input search all state,
    stringReplaceNonregex input search (asReplacement builtins (.string d)) all state =
      stringReplaceNonregex input search (.text (valueToString builtins (.string d))) all state
  matched : ∀ input all (results : List (Option Captures)) state,
    stringReplaceRegex input (asReplacement builtins (.string d)) all 0 results state =
      stringReplaceRegex input (.text (valueToString builtins (.string d))) all 0 results state

/-! ## The markers that are known -/

theorem isMarker_markerOf {name : String} (nonempty : 0 < (asBytes name).length) :
    isMarker (markerOf name) = true := by
  have isPrefix : asBytes "__builtin_" <+: markerOf name := by
    rw [markerOf, List.append_assoc]
    exact List.prefix_append _ _
  have isSuffix : asBytes "__" <:+ markerOf name := List.suffix_append _ _
  have isLength : (markerOf name).length = 12 + (asBytes name).length := by
    rw [markerOf, List.length_append, List.length_append]
    change 10 + _ + 2 = _
    omega
  rw [isMarker, List.isPrefixOf_iff_prefix.mpr isPrefix, List.isSuffixOf_iff_suffix.mpr isSuffix,
    Bool.and_true, Bool.and_true, decide_eq_true_eq]
  omega

theorem asBytes_length_pos {name : String} (nonempty : name ≠ "") : 0 < (asBytes name).length := by
  rw [List.length_pos_iff]
  intro isEmpty
  have sameText := Cache.fromUtf8_asBytes name
  rw [isEmpty, show ([] : Bytes) = asBytes "" from rfl, Cache.fromUtf8_asBytes] at sameText
  exact nonempty (Option.some.inj sameText).symm

/-- A marker of a table is a marker. -/
theorem isMarker_of_knows {names : List String} (nonempty : ∀ name ∈ names, name ≠ "")
    {marker : Bytes} (known : knows names marker = true) : isMarker marker = true := by
  obtain ⟨name, isName, isMarkerOf⟩ := List.any_eq_true.mp known
  rw [← of_decide_eq_true isMarkerOf]
  exact isMarker_markerOf (asBytes_length_pos (nonempty name isName))

theorem isPrefixOf_of_isMarker {obj : Bytes} (marker : isMarker obj = true) :
    (asBytes "__builtin_").isPrefixOf obj = true := by
  rw [isMarker, Bool.and_eq_true, Bool.and_eq_true] at marker
  exact marker.1.2

/-- A string that is no marker calls nothing. -/
theorem callFunctionValue_of_not_isMarker {d : Bytes} (noMarker : isMarker d = false)
    (this : Value) (args : List Value) (state : σ) :
    callFunctionValue builtins (.string d) this args state = (none, state) := by
  have unknown : ∀ names : List String, (∀ name ∈ names, name ≠ "") → knows names d = false := by
    intro names nonempty
    rw [Bool.eq_false_iff]
    intro known
    rw [isMarker_of_knows nonempty known] at noMarker
    cases noMarker
  have notGlobal := unknown globalMarkers (by decide)
  have notMethod := unknown methodMarkers (by decide)
  have noGlobal : callBuiltinGlobalMarker builtins d args state = (none, state) := by
    rw [callBuiltinGlobalMarker, notGlobal]
    rfl
  have noMethod : callBuiltinMethod builtins d this args state = (none, state) := by
    rw [callBuiltinMethod, notMethod, Bool.and_false, if_neg Bool.false_ne_true, ite_self]
  rw [callFunctionValue, noGlobal]
  dsimp only
  rw [noMethod, ite_self]

/-! ## Properties of a marker -/

/-- What a marker gives is no tagged integer. -/
theorem resolveBuiltinMarkerProp_ne_int (obj prop : Bytes) (number : Int32) :
    resolveBuiltinMarkerProp obj prop ≠ some (.int number) := by
  unfold resolveBuiltinMarkerProp
  dsimp only
  generalize (if 12 ≤ obj.length then obj.length - 12 else 0) = baseLen
  intro isInt
  split at isInt
  · cases isInt
  · split at isInt
    · split at isInt <;> cases isInt
    · cases isInt

theorem length_baseBuf {obj : Bytes} {baseLen : ℕ} (inside : baseLen + 12 ≤ obj.length ∨ baseLen = 0) :
    (baseBuf obj baseLen).length = 32 := by
  unfold baseBuf
  split
  · rename_i both
    rw [List.length_append, List.length_take, List.length_drop, List.length_replicate]
    omega
  · rw [List.length_replicate]

/-- Reading a property panics exactly on a marker whose inner name has more than 32
bytes, with a key that leaves the new marker in the buffer of 80. -/
theorem getProp_eq_none_iff (obj key : Bytes) :
    getProp obj key = none ↔
      isMarker obj = true ∧ 33 ≤ obj.length - 12 ∧ 13 + (obj.length - 12) + key.length ≤ 80 := by
  unfold getProp
  cases marker : isMarker obj with
  | false =>
      rw [if_neg Bool.false_ne_true]
      refine ⟨fun isNone => ?_, fun both => absurd both.1 Bool.false_ne_true⟩
      have isSome := congrArg Option.isSome isNone
      rw [apply_ite Option.isSome, Option.isSome_some, Option.isSome_some, ite_self] at isSome
      cases isSome
  | true =>
      have isLong : 13 ≤ obj.length := by
        rw [isMarker, Bool.and_eq_true, Bool.and_eq_true, decide_eq_true_eq] at marker
        exact marker.1.1
      have isLength := length_baseBuf (show obj.length - 12 + 12 ≤ obj.length ∨ obj.length - 12 = 0 by omega)
      have isBase : (if 12 ≤ obj.length then obj.length - 12 else 0) = obj.length - 12 :=
        if_pos (by omega)
      rw [if_pos rfl, and_iff_right rfl]
      unfold resolveBuiltinMarkerProp
      dsimp only
      rw [isBase, isLength]
      split
      · rename_i isConstant
        refine ⟨nofun, fun both => ?_⟩
        rw [if_neg (by omega)] at isConstant
        cases isConstant
      · split
        · rename_i fits
          split
          · exact ⟨nofun, fun both => by omega⟩
          · exact ⟨fun _ => by omega, fun _ => rfl⟩
        · exact ⟨nofun, fun both => by omega⟩

theorem getProp_of_not_isMarker {d : Bytes} (noMarker : isMarker d = false) (key : Bytes) :
    getProp d key = some (dataProperty d.length key) := by
  unfold getProp dataProperty stringProperty
  rw [noMarker, if_neg Bool.false_ne_true]
  dsimp only
  by_cases isLength : key = asBytes "length"
  · rw [isLength, Cache.fromUtf8_asBytes]
    rfl
  · have noLength : (if (fromUtf8 key).isSome then key else []) ≠ asBytes "length" := by
      split
      · exact isLength
      · decide
    rw [if_neg noLength, if_neg isLength, if_pos rfl]

/-! ## Strings on the heap -/

theorem objectPtr_of_string {ctx : Context} {val : JSValue} {bytes : Bytes}
    (isString : ctx.stringBytes val = some bytes) : ctx.objectPtr val = none := by
  cases isObject : ctx.objectPtr val with
  | none => rfl
  | some found =>
      rw [Context.stringBytes_of_object isObject] at isString
      cases isString

/-- Reading a property keeps the strings. -/
theorem getPropertyStr_keeps (ctx : Context) (val : JSValue) (name : Bytes) :
    Context.Keeps ctx (ctx.getPropertyStr val name).2 := by
  have keeps := Context.internString_keeps ctx name
  unfold Context.getPropertyStr
  split
  · exact .refl ctx
  · split
    · exact .refl ctx
    · split <;> (rename_i isInterned; rw [isInterned] at keeps; exact keeps)

theorem getPropertyStr_of_string {ctx : Context} (inUse : ctx.CellsInUse) {val : JSValue}
    {bytes : Bytes} (isString : ctx.stringBytes val = some bytes) (name : Bytes) :
    (ctx.getPropertyStr val name).1 =
      if name = asBytes "length" then some (.int (Int32.ofNat bytes.length)) else none := by
  have noChain : ∀ (ctx : Context) own, ctx.objectPtr val = none →
      ctx.getFromChain own protoSearchLimit val = none := by
    intro ctx own noObject
    rw [show protoSearchLimit = protoSearchLimit - 1 + 1 from rfl, Context.getFromChain, noObject]
  unfold Context.getPropertyStr
  by_cases isLength : name = asBytes "length"
  · rw [if_pos isLength, isString, if_pos isLength]
  · rw [if_neg isLength, if_neg isLength]
    dsimp only
    cases Context.parseIndex name with
    | some idx => exact noChain ctx _ (objectPtr_of_string isString)
    | none =>
        have kept := (Context.internString_keeps ctx name).stringBytes inUse isString
        generalize ctx.internString name = outcome at kept ⊢
        obtain ⟨found, after⟩ := outcome
        cases found with
        | none => rfl
        | some atom => exact noChain after _ (objectPtr_of_string kept)

/-- A string on the heap has no property but its length. -/
theorem jsGetPropertyStr_of_string (engine : Json.Engine) {ctx : Context}
    (inUse : ctx.CellsInUse) {val : JSValue} {bytes : Bytes}
    (isString : ctx.stringBytes val = some bytes) (name : Bytes) :
    (ctx.jsGetPropertyStr engine val name).1 =
      if name = asBytes "length" then .int (Int32.ofNat bytes.length) else .undefined := by
  have noGetter : ∃ after, ctx.callAccessor engine val "__get__" name [] = (none, after) ∧
      after.CellsInUse ∧ after.stringBytes val = some bytes := by
    unfold Context.callAccessor
    split
    · exact ⟨ctx, rfl, inUse, isString⟩
    · have notLength : asBytes "__get__" ++ name ≠ asBytes "length" := by
        intro same
        have first : some (95 : UInt8) = some 108 := congrArg List.head? same
        exact absurd first (by decide)
      have isNone := getPropertyStr_of_string inUse isString (asBytes "__get__" ++ name)
      have keeps := getPropertyStr_keeps ctx val (asBytes "__get__" ++ name)
      rw [if_neg notLength] at isNone
      generalize ctx.getPropertyStr val (asBytes "__get__" ++ name) = outcome at isNone keeps ⊢
      obtain ⟨found, after⟩ := outcome
      dsimp only at isNone
      rw [isNone]
      exact ⟨after, rfl, keeps.inUse inUse, keeps.stringBytes inUse isString⟩
  obtain ⟨after, isNone, inUseAfter, isStill⟩ := noGetter
  have isFound := getPropertyStr_of_string inUseAfter isStill name
  rw [Context.jsGetPropertyStr, isNone]
  dsimp only
  rw [isFound]
  split <;> rfl

/-- On the heap the same strings are functions. -/
theorem jsIsFunction_of_string (engine : Json.Engine) {ctx : Context} (inUse : ctx.CellsInUse)
    {val : JSValue} {bytes : Bytes} (isString : ctx.stringBytes val = some bytes) :
    (ctx.jsIsFunction engine val).1 = jsIsFunction builtins (.string bytes) := by
  have notClosure := jsGetPropertyStr_of_string engine inUse isString (asBytes "__closure__")
  rw [if_neg (by decide)] at notClosure
  rw [Context.jsIsFunction, objectPtr_of_string isString, isString]
  dsimp only
  rw [Option.any_none, Option.any_some, Bool.false_or, jsIsFunction]
  split
  · rename_i isMarked
    exact isMarked.symm
  · rename_i notMarked
    rw [notClosure, Bool.eq_false_iff.mpr notMarked]
    rfl

/-! ## When a string behaves as data -/

/-- A string behaves as data exactly when it does not start as a marker, or when it does
but is no text and does not end as a marker. -/
theorem behavesAsData_iff [Inhabited σ] (d : Bytes) :
    BehavesAsData builtins d ↔
      ¬((asBytes "__builtin_").isPrefixOf d = true ∧
        ((fromUtf8 d).isSome = true ∨ isMarker d = true)) := by
  constructor
  · rintro behaves ⟨isPrefix, taken⟩
    cases marker : isMarker d with
    | true =>
        have isLength := behaves.property (asBytes "length")
        rw [getProp, marker, if_pos rfl] at isLength
        exact resolveBuiltinMarkerProp_ne_int _ _ _ isLength
    | false =>
        rw [marker, or_iff_left Bool.false_ne_true] at taken
        have isFunction : jsIsFunction builtins (.string d) = true := by
          rw [jsIsFunction, taken, isPrefix]
          rfl
        have isText := congrArg Prod.fst (behaves.text [] [] false default)
        rw [asReplacement, if_pos isFunction] at isText
        have isEmpty : valueToString builtins (.string d) = [] := by
          have isNothing := callFunctionValue_of_not_isMarker builtins marker .undefined
          unfold stringReplaceNonregex at isText
          rw [if_pos rfl, if_pos rfl] at isText
          dsimp only at isText
          rw [isNothing] at isText
          simpa using isText.symm
        obtain ⟨text, isDecoded⟩ := Option.isSome_iff_exists.mp taken
        have isEncoded := Cache.eq_encode_of_fromUtf8 isDecoded
        rw [valueToString, isDecoded, Option.map_some, Option.getD_some] at isEmpty
        rw [isEncoded, isEmpty] at isPrefix
        cases isPrefix
  · intro unmarked
    have noMarker : isMarker d = false := by
      rw [Bool.eq_false_iff]
      exact fun marker => unmarked ⟨isPrefixOf_of_isMarker marker, .inr marker⟩
    have noFunction : jsIsFunction builtins (.string d) = false := by
      rw [Bool.eq_false_iff]
      intro isFunction
      rw [jsIsFunction, Bool.and_eq_true] at isFunction
      exact unmarked ⟨isFunction.2, .inl isFunction.1⟩
    have isReplacement : asReplacement builtins (.string d) =
        .text (valueToString builtins (.string d)) := by
      rw [asReplacement, noFunction, if_neg Bool.false_ne_true]
    have noCall := callFunctionValue_of_not_isMarker builtins noMarker
    have notNumber : Value.string d ≠ .string (markerOf "Number") := by
      intro isNumber
      rw [Value.string.inj isNumber, isMarker_markerOf (asBytes_length_pos (by decide))] at noMarker
      cases noMarker
    refine ⟨getProp_of_not_isMarker noMarker, ?_, ?_, rfl, ⟨rfl, fun _ => rfl⟩, ?_, ?_⟩
    · intro key args state
      rw [callMethod, getProp_of_not_isMarker noMarker, Option.map_some]
    · intro this args state
      unfold call
      split
      · rw [if_neg notNumber]
        exact noCall _ _ _
      · exact noCall _ _ _
    · intro input search all state
      rw [isReplacement]
    · intro input all results state
      rw [isReplacement]

/-- Builtins without an effect. -/
def idleBuiltins : Builtins Unit where
  global _ _ state := (.undefined, state)
  method _ _ _ state := (none, state)
  toNumber _ state := (none, state)
  callObject _ _ _ state := (none, state)
  isFunctionObject _ := false
  display _ := []

/-- The length of a marker with a long inner name cannot be read. -/
theorem not_always_behavesAsData :
    ¬∀ (σ : Type) (builtins : Builtins σ) (d : Bytes), BehavesAsData builtins d := by
  intro always
  have isLength := (always Unit idleBuiltins
    (asBytes "__builtin_" ++ List.replicate 33 120 ++ asBytes "__")).property (asBytes "length")
  have isPanic := (getProp_eq_none_iff
    (asBytes "__builtin_" ++ List.replicate 33 120 ++ asBytes "__") (asBytes "length")).mpr
    (by decide)
  rw [isPanic] at isLength
  cases isLength

end Markers
end Script
end MuonJs
