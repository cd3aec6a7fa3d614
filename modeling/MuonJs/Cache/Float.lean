import MuonJs.Cache.Bytes

/-!
# Scores: binary64 bit patterns

A sorted-set score is an `f64`.  It is kept as its bit pattern, which is what
the store copies and the persistence layer binds; only comparison and parsing
look inside.  Parsing is the standard library's: the decimal value rounded to
the nearest representable number, ties to the even significand.
-/

namespace MuonJs
namespace Cache

/-- An `f64` as its IEEE 754 bit pattern. -/
structure F64 where
  bits : UInt64
  deriving DecidableEq, Repr

namespace F64

/-- Magnitude bits, without the sign. -/
def magnitude (value : F64) : Nat := value.bits.toNat % 2 ^ 63

/-- Bit pattern of the magnitude of infinity. -/
def infinityBits : Nat := 0x7ff0000000000000

/-- `f64::is_nan`. -/
def isNan (value : F64) : Bool := infinityBits < value.magnitude

/-- Integer that orders the values other than NaN; both zeros map to `0`. -/
def key (value : F64) : Int :=
  if value.bits.toNat < 2 ^ 63 then value.magnitude else -value.magnitude

/-- `f64::partial_cmp`. -/
def partialCmp (left right : F64) : Option Ordering :=
  if left.isNan || right.isNan then none
  else some (compare left.key right.key)

/-- The value `0.0`. -/
def zero : F64 := ⟨0⟩

/-- Assemble a sign and a magnitude. -/
def ofMagnitude (negative : Bool) (magnitude : Nat) : F64 :=
  ⟨UInt64.ofNat (if negative then 2 ^ 63 + magnitude else magnitude)⟩

/-- Nearest integer to `num / den`, ties to even. -/
def roundHalfEven (num den : Nat) : Nat :=
  let quotient := num / den
  let twice := 2 * (num % den)
  if twice < den then quotient
  else if den < twice then quotient + 1
  else quotient + quotient % 2

/-- Magnitude bits of the representable number nearest to `num / den`. -/
def roundRatio (num den : Nat) : Nat :=
  if num = 0 then 0
  else
    let guess : Int := (Nat.log2 num : Int) - Nat.log2 den
    let reaches : Bool :=
      if 0 ≤ guess then den * 2 ^ guess.toNat ≤ num
      else den ≤ num * 2 ^ (-guess).toNat
    let exponent := if reaches then guess else guess - 1
    let scale := max (-1074) (exponent - 52)
    let significand :=
      if 0 ≤ scale then roundHalfEven num (den * 2 ^ scale.toNat)
      else roundHalfEven (num * 2 ^ (-scale).toNat) den
    min infinityBits ((scale + 1074).toNat * 2 ^ 52 + significand)

/-- Magnitude bits of `digits * 10 ^ exponent`, for digits of which there are
`digitCount` without leading zeros.  Outside the clamped range the result is zero
or infinity whatever the digits are. -/
def roundDecimal (digits digitCount : Nat) (exponent : Int) : Nat :=
  if digits = 0 then 0
  else if 400 < exponent + digitCount then infinityBits
  else if exponent + digitCount < -400 then 0
  else if 0 ≤ exponent then roundRatio (digits * 10 ^ exponent.toNat) 1
  else roundRatio digits (10 ^ (-exponent).toNat)

/-- Split off the leading decimal digits. -/
def spanDigits (input : Bytes) : Bytes × Bytes := input.span isAsciiDigit

/-- Exponent part after the digits: absent, or `e`, a sign and digits. -/
def parseExponent : Bytes → Option Int
  | [] => some 0
  | marker :: rest =>
      if marker = 101 ∨ marker = 69 then
        match rest with
        | 45 :: digits => (digitsValue digits).map fun value => -(value : Int)
        | 43 :: digits => (digitsValue digits).map fun value => (value : Int)
        | digits => (digitsValue digits).map fun value => (value : Int)
      else none

/-- Magnitude bits of an unsigned decimal number. -/
def parseNumber (input : Bytes) : Option Nat :=
  let (whole, rest) := spanDigits input
  let (fraction, rest) : Bytes × Bytes := match rest with
    | 46 :: afterPoint => spanDigits afterPoint
    | _ => ([], rest)
  let digits := whole ++ fraction
  (digitsValue digits).bind fun value =>
    (parseExponent rest).map fun exponent =>
      roundDecimal value (Nat.toDigits 10 value).length (exponent - fraction.length)

/-- Magnitude bits of an unsigned number, `inf`, `infinity` or `nan`. -/
def parseMagnitude (input : Bytes) : Option Nat :=
  match parseNumber input with
  | some magnitude => some magnitude
  | none =>
      let upper := toAsciiUppercase input
      if upper = asBytes "INF" ∨ upper = asBytes "INFINITY" then
        some infinityBits
      else if upper = asBytes "NAN" then some 0x7ff8000000000000
      else none

end F64

/-- `str::parse::<f64>` on UTF-8 input. -/
def parseF64 : Bytes → Option F64
  | 45 :: rest => (F64.parseMagnitude rest).map (F64.ofMagnitude true)
  | 43 :: rest => (F64.parseMagnitude rest).map (F64.ofMagnitude false)
  | input => (F64.parseMagnitude input).map (F64.ofMagnitude false)

end Cache
end MuonJs
