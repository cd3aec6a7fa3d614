import MuonJs.Script.Doubles
import MuonJs.Script.Strings

/-!
# Conversions to numbers and strings

`js_to_number`: a number stays, a boolean is zero or one, `null` is zero, `undefined`
is not a number, a string is read, and an object is converted to a primitive value
first.  `js_to_string` likewise.  What the methods of an object do, and how a double is
written, is left to a parameter.
-/

namespace MuonJs
namespace Script

open Cache (Bytes F64 asBytes fromUtf8 digitsValue isAsciiDigit parseF64 toU64)

/-! ## Strings -/

/-- `char::to_digit`, for an ASCII character. -/
def radixDigit (radix : ℕ) (byte : UInt8) : Option ℕ :=
  let digit :=
    if isAsciiDigit byte then some (byte.toNat - 48)
    else if 97 ≤ byte ∧ byte ≤ 122 then some (byte.toNat - 87)
    else if 65 ≤ byte ∧ byte ≤ 90 then some (byte.toNat - 55)
    else none
  digit.filter (· < radix)

/-- The value of digits that continue a number. -/
def radixValueFrom (radix value : ℕ) : Bytes → Option ℕ
  | [] => some value
  | byte :: rest =>
      (radixDigit radix byte).bind fun digit => radixValueFrom radix (value * radix + digit) rest

/-- `u64::from_str_radix`: digits, after a plus sign if there is one. -/
def fromStrRadix (radix : ℕ) (text : Bytes) : Option UInt64 :=
  let digits := match text with
    | 43 :: rest => rest
    | _ => text
  if digits.isEmpty then none else (radixValueFrom radix 0 digits).bind toU64

/-- An integer after a prefix that names its radix. -/
def prefixedNumber (radix : ℕ) (lower upper : Bytes) (text : Bytes) : Option F64 :=
  ((stripPrefix lower text).orElse fun _ => stripPrefix upper text).bind fun rest =>
    (fromStrRadix radix rest).map fun value => F64.ofInt value.toNat

/-- The fast path: at most ten bytes, digits after a minus sign if there is one. -/
def fastNumber (bytes : Bytes) : Option F64 :=
  if bytes.isEmpty ∨ 10 < bytes.length then none
  else
    match bytes with
    | 45 :: digits => (digitsValue digits).map fun value : ℕ => F64.ofInt (-value)
    | digits => (digitsValue digits).map fun value : ℕ => F64.ofInt value

/-- The number that a text without white space around it stands for. -/
def trimmedNumber (text : Bytes) : F64 :=
  if text.isEmpty then .zero
  else if text = asBytes "Infinity" ∨ text = asBytes "+Infinity" then .infinity false
  else if text = asBytes "-Infinity" then .infinity true
  else if text = asBytes "NaN" then .nan
  else
    ((prefixedNumber 16 (asBytes "0x") (asBytes "0X") text).orElse fun _ =>
      (prefixedNumber 8 (asBytes "0o") (asBytes "0O") text).orElse fun _ =>
      (prefixedNumber 2 (asBytes "0b") (asBytes "0B") text).orElse fun _ =>
      parseF64 text).getD .nan

/-- The path that every string can take. -/
def generalNumber (bytes : Bytes) : F64 :=
  if (fromUtf8 bytes).isSome then trimmedNumber (trim bytes) else .nan

/-- The number that a string stands for. -/
def stringToNumber (bytes : Bytes) : F64 := (fastNumber bytes).getD (generalNumber bytes)

/-! ## Values -/

/-- What the conversions depend on: `js_to_primitive` with `prefer_number`, whether an
exception is pending, and `f64::to_string`. -/
structure Conversions where
  toPrimitive : Bool → Context → JSValue → JSValue × Context
  isPending : Context → Bool
  display : F64 → Bytes

namespace Context

/-- `js_to_number` of a value that is no object; none is an exception. -/
def primitiveToNumber (ctx : Context) : JSValue → Option F64
  | .int n => some (i32AsF64 n)
  | .bool value => some (i32AsF64 (if value then 1 else 0))
  | .null => some .zero
  | .undefined => some .nan
  | .exception => none
  | .ptr address =>
      match ctx.heap address with
      | some (.float value) => some value
      | some (.string bytes) => some (stringToNumber bytes)
      | _ => none

/-- `js_to_number`; none is an exception. -/
def jsToNumber (conversions : Conversions) (ctx : Context) (val : JSValue) :
    Option F64 × Context :=
  if (ctx.objectPtr val).isSome then
    let (prim, ctx) := conversions.toPrimitive true ctx val
    if prim = .exception then (none, ctx)
    else if (ctx.objectPtr prim).isNone then (ctx.primitiveToNumber prim, ctx)
    else if conversions.isPending ctx then (none, ctx)
    else (some .nan, ctx)
  else (ctx.primitiveToNumber val, ctx)

/-- `js_to_string` of a value that is no object. -/
def primitiveToString (conversions : Conversions) (ctx : Context) (val : JSValue) :
    JSValue × Context :=
  match val with
  | .int n => ctx.newString (Json.i32Bytes n)
  | .bool value => ctx.newString (asBytes (if value then "true" else "false"))
  | .null => ctx.newString (asBytes "null")
  | .undefined => ctx.newString (asBytes "undefined")
  | .exception => (.undefined, ctx)
  | .ptr address =>
      match ctx.heap address with
      | some (.float value) => ctx.newString (Json.numberText conversions.display value)
      | some (.string _) => (val, ctx)
      | _ => (.undefined, ctx)

/-- `js_to_string`. -/
def jsToString (conversions : Conversions) (ctx : Context) (val : JSValue) :
    JSValue × Context :=
  match ctx.objectPtr val with
  | none => ctx.primitiveToString conversions val
  | some (_, obj) =>
      let (prim, ctx) := conversions.toPrimitive false ctx val
      if (ctx.objectPtr prim).isNone then ctx.primitiveToString conversions prim
      else if obj.classId = arrayClass then ctx.newString (asBytes "[object Array]")
      else ctx.newString (asBytes "[object Object]")

/-- The number of a heap number. -/
theorem jsToNumber_of_float
    (conversions : Conversions) {ctx : Context} {address : ℕ} {number : F64}
    (stored : ctx.heap address = some (.float number)) :
    ctx.jsToNumber conversions (.ptr address) = (some number, ctx) := by
  have notObject : ctx.objectPtr (.ptr address) = none := by
    simp only [objectPtr, stored]
  rw [jsToNumber, notObject, if_neg (by decide), primitiveToNumber, stored]

/-- The number that a string value is converted to. -/
theorem jsToNumber_of_string
    (conversions : Conversions) {ctx : Context} {val : JSValue} {bytes : Bytes}
    (isText : ctx.stringBytes val = some bytes) :
    ctx.jsToNumber conversions val = (some (stringToNumber bytes), ctx) := by
  obtain ⟨address, rfl, stored⟩ := stringBytes_eq_some isText
  have notObject : ctx.objectPtr (.ptr address) = none := by
    simp only [objectPtr, stored]
  rw [jsToNumber, notObject, if_neg (by decide), primitiveToNumber, stored]

end Context
end Script
end MuonJs
