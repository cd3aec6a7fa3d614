import MuonJs.Script.Compiler

/-!
# JSON

`JSON.stringify` and `JSON.parse`.  The writer goes through a value on the heap
with the property access of the API, which looks for accessors and functions
under marked names; the parser builds values while it reads.  Both are
recursive and take fuel; what is out of fuel has no outcome.

Two parts of the engine are parameters: the call of a script function, which an
accessor leads to, and the text of a number that is no `i32`.
-/

namespace MuonJs
namespace Script

open Cache (Bytes F64 asBytes fromUtf8 parseF64 natBytes isAsciiDigit)

namespace Json

/-! ## The engine around it -/

/-- What `Context::new_array` makes an array from: `array_proto`, `array_push_fn`
and `array_pop_fn`. -/
structure ArrayDefaults where
  proto : JSValue
  pushFn : JSValue
  popFn : JSValue

/-- The parts of the engine that the functions below call: the closure call
(`call_closure_with_this`), `f64::to_string` outside of the range of `i32`, and
what arrays are made from. -/
structure Engine where
  callClosureWithThis : Context → JSValue → JSValue → List JSValue → Option JSValue × Context
  display : F64 → Bytes
  arrays : ArrayDefaults

/-- The class `CFunction` of `JSObjectClassEnum`. -/
def cFunctionClass : UInt32 := 2

/-- The class `Closure` of `JSObjectClassEnum`. -/
def closureClass : UInt32 := 3

/-- The name is that of an accessor. -/
def isAccessorName (name : Bytes) : Bool :=
  (asBytes "__get__").isPrefixOf name || (asBytes "__set__").isPrefixOf name

/-- `f64::is_finite`. -/
def isFinite (number : F64) : Bool := number.magnitude < F64.infinityBits

/-- Decimal text of an `i32`. -/
def i32Bytes (n : Int32) : Bytes :=
  if n.toInt < 0 then 45 :: natBytes n.toInt.natAbs else natBytes n.toInt.natAbs

/-- `f64::to_string`: an integer in the range of `i32` is written out. -/
def numberText (display : F64 → Bytes) (number : F64) : Bytes :=
  if i32AsF64 (asI32 number) = number then i32Bytes (asI32 number) else display number

end Json

namespace Context

/-- `Context::float_value`. -/
def floatValue (ctx : Context) : JSValue → Option F64
  | .ptr address =>
      match ctx.heap address with
      | some (.float value) => some value
      | _ => none
  | _ => none

/-- `js_is_number` with `js_to_number`. -/
def numberOf (ctx : Context) : JSValue → Option F64
  | .int n => some (i32AsF64 n)
  | value => ctx.floatValue value

open Json

variable (engine : Engine)

/-- Look for the accessor of a property and call it: none where there is none,
or where its call gives nothing. -/
def callAccessor (ctx : Context) (this : JSValue) (marker : String) (name : Bytes)
    (args : List JSValue) : Option JSValue × Context :=
  if isAccessorName name then (none, ctx)
  else
    match ctx.getPropertyStr this (asBytes marker ++ name) with
    | (none, ctx) => (none, ctx)
    | (some found, ctx) =>
        if found = .undefined then (none, ctx)
        else engine.callClosureWithThis ctx found this args

/-- `js_get_property_str`. -/
def jsGetPropertyStr (ctx : Context) (this : JSValue) (name : Bytes) : JSValue × Context :=
  match ctx.callAccessor engine this "__get__" name [] with
  | (some result, ctx) => (result, ctx)
  | (none, ctx) =>
      let (found, ctx) := ctx.getPropertyStr this name
      (found.getD .undefined, ctx)

/-- `js_set_property_str`, on an object that is no array; an exception where it
cannot be set. -/
def jsSetPropertyStr (ctx : Context) (this : JSValue) (name : Bytes) (value : JSValue) :
    JSValue × Context :=
  match ctx.callAccessor engine this "__set__" name [value] with
  | (some result, ctx) => (result, ctx)
  | (none, ctx) =>
      let (isSet, ctx) := ctx.setPropertyStr this name value
      (if isSet then value else .exception, ctx)

/-- `js_get_property_uint32`, on an array or an object. -/
def jsGetPropertyUint32 (ctx : Context) (val : JSValue) (idx : UInt32) : JSValue :=
  match ctx.objectPtr val with
  | some (_, obj) =>
      if obj.isArray then arrayGet obj idx else (ctx.getPropertyIndex val idx).getD .undefined
  | none => .undefined

/-- `js_is_function`: a function by its class, a marked text, or an object marked
as a closure. -/
def jsIsFunction (ctx : Context) (val : JSValue) : Bool × Context :=
  let isClass := (ctx.objectPtr val).any fun (_, obj) =>
    obj.classId = cFunctionClass || obj.classId = closureClass
  let isMarkedText := (ctx.stringBytes val).any fun bytes =>
    (fromUtf8 bytes).isSome && (asBytes "__builtin_").isPrefixOf bytes
  if isClass || isMarkedText then (true, ctx)
  else
    let (marker, ctx) := ctx.jsGetPropertyStr engine val (asBytes "__closure__")
    (marker = .bool true, ctx)

/-- `js_new_object`. -/
def jsNewObject (ctx : Context) : JSValue × Context :=
  match ctx.newObject objectClass with
  | some (val, ctx) => (val, ctx)
  | none => (.exception, ctx)

/-- Set a method of an array, unless it is undefined. -/
def setMethod (ctx : Context) (arr : JSValue) (name : String) (method : JSValue) : Context :=
  if method = .undefined then ctx else (ctx.setPropertyStr arr (asBytes name) method).2

/-- `js_new_array` of length zero, with `Context::new_array`. -/
def jsNewArray (arrays : ArrayDefaults) (ctx : Context) : JSValue × Context :=
  match ctx.newObject arrayClass with
  | none => (.exception, ctx)
  | some (arr, ctx) =>
      if arrays.proto = .undefined then
        (arr, (ctx.setMethod arr "push" arrays.pushFn).setMethod arr "pop" arrays.popFn)
      else (arr, (ctx.setObjectProto arr arrays.proto).2)

/-- `js_array_push`, with `Context::array_push`. -/
def jsArrayPush (ctx : Context) (arr elem : JSValue) : JSValue × Context :=
  match ctx.objectPtr arr with
  | none => (.exception, ctx)
  | some (address, obj) =>
      if obj.isArray then
        let (isSet, ctx) := ctx.arraySet address obj obj.arrayLen elem
        if isSet then (.int (obj.arrayLen + 1).toInt32, ctx) else (.exception, ctx)
      else (.exception, ctx)

end Context

namespace Json

/-! ## Writing -/

/-- The text of one character of a string. -/
def escapeChar : Char → List Char
  | '\"' => ['\\', '\"']
  | '\\' => ['\\', '\\']
  | '\n' => ['\\', 'n']
  | '\r' => ['\\', 'r']
  | '\t' => ['\\', 't']
  | char => [char]

/-- The text of a string. -/
def stringText (text : String) : Bytes :=
  34 :: asBytes (String.ofList (text.toList.flatMap escapeChar)) ++ [34]

/-- A comma before all items but the first. -/
def separator (isFirst : Bool) : Bytes := if isFirst then [] else [44]

/-- The text of `undefined` and of functions: `null` in an array, none elsewhere. -/
def absentText (inArray : Bool) : Option Bytes :=
  if inArray then some (asBytes "null") else none

/-- What writes a value: none when it is out of fuel, no text for what is left
out. -/
abbrev JsonWriter := Context → JSValue → Bool → Option (Option Bytes × Context)

/-- The loop of `json_stringify_value_inner` over the elements of an array. -/
def elementsText (write : JsonWriter) (val : JSValue) (index : ℕ) :
    ℕ → Context → Option (Bytes × Context)
  | 0, ctx => some ([], ctx)
  | count + 1, ctx =>
      (write ctx (ctx.jsGetPropertyUint32 val (UInt32.ofNat index)) true).bind
        fun (text, ctx) =>
          (elementsText write val (index + 1) count ctx).map fun (rest, ctx) =>
            (separator (index = 0) ++ text.getD (asBytes "null") ++ rest, ctx)

/-- The loop of `json_stringify_value_inner` over the keys of an object: a value
without text is left out. -/
def membersText (engine : Engine) (write : JsonWriter) (val : JSValue) (isFirst : Bool) :
    List Bytes → Context → Option (Bytes × Context)
  | [], ctx => some ([], ctx)
  | key :: keys, ctx =>
      let (found, ctx) := ctx.jsGetPropertyStr engine val key
      (write ctx found false).bind fun (text, ctx) =>
        match text with
        | none => membersText engine write val isFirst keys ctx
        | some text =>
            (membersText engine write val false keys ctx).map fun (rest, ctx) =>
              (separator isFirst ++ 34 :: key ++ asBytes "\":" ++ text ++ rest, ctx)

/-- `json_stringify_value_inner`. -/
def jsonStringifyInner (engine : Engine) : ℕ → JsonWriter
  | 0, _, _, _ => none
  | fuel + 1, ctx, val, inArray =>
      match ctx.stringBytes val with
      | some bytes => some (some (stringText ((fromUtf8 bytes).getD "")), ctx)
      | none =>
          match ctx.numberOf val with
          | some number =>
              some (some (if isFinite number then numberText engine.display number
                else asBytes "null"), ctx)
          | none =>
              match val with
              | .bool truth => some (some (asBytes (if truth then "true" else "false")), ctx)
              | .null => some (some (asBytes "null"), ctx)
              | .undefined => some (absentText inArray, ctx)
              | val =>
                  let (isFunction, ctx) := ctx.jsIsFunction engine val
                  if isFunction then some (absentText inArray, ctx)
                  else if (ctx.objectPtr val).any fun (_, obj) => obj.classId = arrayClass then
                    let (len, ctx) := ctx.getPropertyStr val (asBytes "length")
                    let count := match len with
                      | some (.int len) => len.toInt.toNat
                      | _ => 0
                    (elementsText (jsonStringifyInner engine fuel) val 0 count ctx).map
                      fun (text, ctx) => (some (91 :: text ++ [93]), ctx)
                  else
                    (membersText engine (jsonStringifyInner engine fuel) val true
                      ((ctx.objectKeys val).getD []) ctx).map
                      fun (text, ctx) => (some (123 :: text ++ [125]), ctx)

/-- `json_stringify_value`. -/
def jsonStringifyValue (engine : Engine) (fuel : ℕ) (ctx : Context) (val : JSValue) :
    Option (Option Bytes × Context) :=
  jsonStringifyInner engine fuel ctx val false

/-! ## Reading -/

/-- The outcome of a parser that takes fuel: none when it is out of fuel, an inner
none when the text is rejected. -/
abbrev Parsed (α : Type) := Option (Option α)

/-- Go on with what was read. -/
def Parsed.andThen (outcome : Parsed α) (next : α → Parsed β) : Parsed β :=
  outcome.bind fun
    | none => some none
    | some value => next value

/-- `JsonParser::skip_ws`. -/
def skipWs (input : Bytes) : Bytes :=
  input.dropWhile fun byte => byte = 32 || byte = 10 || byte = 13 || byte = 9

/-- `hex_val`. -/
def hexVal (byte : UInt8) : Option ℕ :=
  if 48 ≤ byte ∧ byte ≤ 57 then some (byte.toNat - 48)
  else if 97 ≤ byte ∧ byte ≤ 102 then some (byte.toNat - 87)
  else if 65 ≤ byte ∧ byte ≤ 70 then some (byte.toNat - 55)
  else none

/-- `JsonParser::parse_hex4`. -/
def parseHex4 (digits : List UInt8) : Option ℕ :=
  digits.foldlM (fun value byte => (hexVal byte).map fun digit => value * 16 + digit) 0

/-- The UTF-8 bytes of a code point (`char::from_u32` with `encode_utf8`). -/
def encodeUtf8 (code : ℕ) : Option Bytes :=
  if valid : code.isValidChar then some (asBytes (String.singleton ⟨UInt32.ofNat code, by
    rw [UInt32.isValidChar, UInt32.toNat_ofNat_of_lt']
    · exact valid
    · rcases valid with low | high
      · exact low.trans (by decide)
      · exact high.2.trans (by decide)⟩))
  else none

/-- `is_high_surrogate`. -/
def isHighSurrogate (code : ℕ) : Bool := 0xD800 ≤ code && code ≤ 0xDBFF

/-- `is_low_surrogate`. -/
def isLowSurrogate (code : ℕ) : Bool := 0xDC00 ≤ code && code ≤ 0xDFFF

/-- The byte of an escape of one letter. -/
def simpleEscape (esc : UInt8) : Option UInt8 :=
  if esc = 34 ∨ esc = 92 ∨ esc = 47 then some esc
  else if esc = 98 then some 8
  else if esc = 102 then some 12
  else if esc = 110 then some 10
  else if esc = 114 then some 13
  else if esc = 116 then some 9
  else none

/-- The loop of `JsonParser::parse_string_bytes`, after the opening quote: the
bytes of the string and what follows its closing quote. -/
def parseStringLoop : Bytes → Option (Bytes × Bytes)
  | [] => none
  | 34 :: rest => some ([], rest)
  | 92 :: 117 :: a :: b :: c :: d :: rest =>
      (parseHex4 [a, b, c, d]).bind fun code =>
        if isHighSurrogate code then
          match rest with
          | 92 :: 117 :: a :: b :: c :: d :: rest =>
              (parseHex4 [a, b, c, d]).bind fun low =>
                if isLowSurrogate low then
                  (encodeUtf8 (0x10000 + ((code - 0xD800) * 1024 + (low - 0xDC00)))).bind
                    fun bytes => (parseStringLoop rest).map fun (out, rest) =>
                      (bytes ++ out, rest)
                else none
          | _ => none
        else if isLowSurrogate code then none
        else (encodeUtf8 code).bind fun bytes =>
          (parseStringLoop rest).map fun (out, rest) => (bytes ++ out, rest)
  | 92 :: esc :: rest =>
      (simpleEscape esc).bind fun byte =>
        (parseStringLoop rest).map fun (out, rest) => (byte :: out, rest)
  | byte :: rest =>
      if byte < 0x20 ∨ byte = 92 then none
      else (parseStringLoop rest).map fun (out, rest) => (byte :: out, rest)

/-- `JsonParser::parse_string_bytes`. -/
def parseStringBytes : Bytes → Option (Bytes × Bytes)
  | 34 :: rest => parseStringLoop rest
  | _ => none

/-- Digits, at least one: them and what follows. -/
def takeDigits (input : Bytes) : Option (Bytes × Bytes) :=
  match input.span isAsciiDigit with
  | ([], _) => none
  | (digits, rest) => some (digits, rest)

/-- The integer part of a number: a zero, or digits without a leading zero. -/
def takeInteger : Bytes → Option (Bytes × Bytes)
  | 48 :: rest => some ([48], rest)
  | input => takeDigits input

/-- The fraction of a number, which may be absent. -/
def takeFraction : Bytes → Option (Bytes × Bytes)
  | 46 :: rest => (takeDigits rest).map fun (digits, rest) => (46 :: digits, rest)
  | input => some ([], input)

/-- The exponent of a number, which may be absent. -/
def takeExponent : Bytes → Option (Bytes × Bytes)
  | [] => some ([], [])
  | byte :: rest =>
      if byte = 101 ∨ byte = 69 then
        match rest with
        | 43 :: rest => (takeDigits rest).map fun (digits, rest) => (byte :: 43 :: digits, rest)
        | 45 :: rest => (takeDigits rest).map fun (digits, rest) => (byte :: 45 :: digits, rest)
        | rest => (takeDigits rest).map fun (digits, rest) => (byte :: digits, rest)
      else some ([], byte :: rest)

/-- The text of a number and what follows. -/
def takeNumber (input : Bytes) : Option (Bytes × Bytes) :=
  let (sign, input) : Bytes × Bytes := match input with
    | 45 :: rest => ([45], rest)
    | input => ([], input)
  (takeInteger input).bind fun (whole, input) =>
    (takeFraction input).bind fun (fraction, input) =>
      (takeExponent input).map fun (exponent, input) =>
        (sign ++ whole ++ fraction ++ exponent, input)

/-- `JsonParser::parse_number`. -/
def parseJsonNumber (ctx : Context) (input : Bytes) : Option (JSValue × Bytes × Context) :=
  (takeNumber input).bind fun (text, rest) =>
    (parseF64 text).map fun number =>
      let (val, ctx) := ctx.numberToValue number
      (val, rest, ctx)

/-- What reads a value: it, what follows, and the context. -/
abbrev JsonReader := Context → Bytes → Parsed (JSValue × Bytes × Context)

/-- The loop of `JsonParser::parse_array`. -/
def parseElements (read : JsonReader) (arr : JSValue) : ℕ → Context → Bytes →
    Parsed (Bytes × Context)
  | 0, _, _ => none
  | turns + 1, ctx, input =>
      Parsed.andThen (read ctx input) fun (val, input, ctx) =>
        match ctx.jsArrayPush arr val with
        | (.exception, _) => some none
        | (_, ctx) =>
            match skipWs input with
            | 44 :: rest => parseElements read arr turns ctx (skipWs rest)
            | 93 :: rest => some (some (rest, ctx))
            | _ => some none

/-- The loop of `JsonParser::parse_object`. -/
def parseMembers (engine : Engine) (read : JsonReader) (obj : JSValue) : ℕ → Context → Bytes →
    Parsed (Bytes × Context)
  | 0, _, _ => none
  | turns + 1, ctx, input =>
      match parseStringBytes (skipWs input) with
      | none => some none
      | some (key, input) =>
          if (fromUtf8 key).isNone then some none
          else
            match skipWs input with
            | 58 :: rest =>
                Parsed.andThen (read ctx rest) fun (val, input, ctx) =>
                  match ctx.jsSetPropertyStr engine obj key val with
                  | (.exception, _) => some none
                  | (_, ctx) =>
                      match skipWs input with
                      | 44 :: rest => parseMembers engine read obj turns ctx rest
                      | 125 :: rest => some (some (rest, ctx))
                      | _ => some none
            | _ => some none

/-- `JsonParser::consume_literal`, and the value it stands for. -/
def parseLiteral (literal : String) (val : JSValue) (ctx : Context) (input : Bytes) :
    Option (JSValue × Bytes × Context) :=
  if (asBytes literal).isPrefixOf input then
    some (val, input.drop (asBytes literal).length, ctx)
  else none

/-- `JsonParser::parse_value`, with `parse_array` and `parse_object`. -/
def parseValue (engine : Engine) : ℕ → JsonReader
  | 0, _, _ => none
  | fuel + 1, ctx, input =>
      match skipWs input with
      | 123 :: rest =>
          match ctx.jsNewObject with
          | (.exception, _) => some none
          | (obj, ctx) =>
              match skipWs rest with
              | 125 :: rest => some (some (obj, rest, ctx))
              | rest =>
                  Parsed.andThen (parseMembers engine (parseValue engine fuel) obj fuel ctx rest)
                    fun (rest, ctx) => some (some (obj, rest, ctx))
      | 91 :: rest =>
          match Context.jsNewArray engine.arrays ctx with
          | (.exception, _) => some none
          | (arr, ctx) =>
              match skipWs rest with
              | 93 :: rest => some (some (arr, rest, ctx))
              | rest =>
                  Parsed.andThen (parseElements (parseValue engine fuel) arr fuel ctx rest)
                    fun (rest, ctx) => some (some (arr, rest, ctx))
      | 34 :: rest =>
          some ((parseStringLoop rest).bind fun (bytes, rest) =>
            if (fromUtf8 bytes).isSome then
              let (val, ctx) := ctx.newString bytes
              some (val, rest, ctx)
            else none)
      | 116 :: rest => some (parseLiteral "true" (.bool true) ctx (116 :: rest))
      | 102 :: rest => some (parseLiteral "false" (.bool false) ctx (102 :: rest))
      | 110 :: rest => some (parseLiteral "null" .null ctx (110 :: rest))
      | byte :: rest =>
          if byte = 45 ∨ isAsciiDigit byte then some (parseJsonNumber ctx (byte :: rest))
          else some none
      | [] => some none

/-- `parse_json`. -/
def parseJson (engine : Engine) (fuel : ℕ) (ctx : Context) (src : Bytes) :
    Parsed (JSValue × Context) :=
  Parsed.andThen (parseValue engine fuel ctx src) fun (val, rest, ctx) =>
    some (if (skipWs rest).isEmpty then some (val, ctx) else none)

example : parseStringLoop (asBytes "a\\u00e9\\ud83d\\ude00\"x") = some (asBytes "aé😀", asBytes "x") := by
  decide

end Json
end Script
end MuonJs
