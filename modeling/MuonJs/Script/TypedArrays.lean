import MuonJs.Lib.ByteStore
import MuonJs.Script.BitOperands
import MuonJs.Script.LoopUpdates

/-!
# Typed arrays

A typed array is a view of a buffer of bytes: an offset, a count of elements and their
kind.  Views are built over buffers, cut from other views, written by element and copied
from one another.  This module says which views stay inside their buffer, what an element
reads back after a number was written, and when a copy between views keeps the old
values of its source.
-/

namespace MuonJs
namespace Script
namespace TypedArrays

open Cache (Bytes F64)
open ByteStore (toLe fromLe toTwos fromTwos load store)

/-! ## Single precision -/

namespace Binary32

/-- The magnitude bits of infinity. -/
def infinityBits : ℕ := 255 * 2 ^ 23

/-- The exponent of the last bit that a single nearest to the number has. -/
def scale (number : ℚ) : ℤ := max (-149) (Int.log 2 number - 23)

/-- The magnitude bits of the single nearest to a number that is not negative. -/
def nearest (number : ℚ) : ℕ :=
  if number = 0 then 0
  else min infinityBits
    ((scale number + 149).toNat * 2 ^ 23 + Binary64.halfEven (number / 2 ^ scale number))

/-- The number that magnitude bits denote. -/
def toRat (magnitude : ℕ) : ℚ :=
  (magnitude % 2 ^ 23 + if magnitude / 2 ^ 23 = 0 then 0 else 2 ^ 23 : ℕ) *
    2 ^ ((max (magnitude / 2 ^ 23) 1 : ℕ) - 150 : ℤ)

end Binary32

/-- `f64 as f32`: the bits of the single. -/
def asF32 (number : F64) : ℕ :=
  (if number.isNegative then 2 ^ 31 else 0) +
    if number.isNan then 0x7fc00000
    else if number.isInfinite then Binary32.infinityBits
    else Binary32.nearest number.absRat

/-- `f32 as f64`, from the bits of the single. -/
def f32AsF64 (bits : ℕ) : F64 :=
  let negative : Bool := 2 ^ 31 ≤ bits
  let magnitude := bits % 2 ^ 31
  if Binary32.infinityBits < magnitude then .nan
  else if magnitude = Binary32.infinityBits then .infinity negative
  else .round negative
    (if negative then -Binary32.toRat magnitude else Binary32.toRat magnitude)

/-! ## Elements -/

/-- `TypedArrayKind`. -/
inductive TypedArrayKind
  | uint8 | uint8Clamped | int8 | int16 | uint16 | int32 | uint32 | float32 | float64
deriving DecidableEq, Repr

/-- `elem_size`. -/
def TypedArrayKind.elemSize : TypedArrayKind → ℕ
  | .uint8 | .uint8Clamped | .int8 => 1
  | .int16 | .uint16 => 2
  | .int32 | .uint32 | .float32 => 4
  | .float64 => 8

/-- A value that is read from a typed array; a double is made one by `number_to_value`. -/
inductive Element
  | undefined
  | int (value : Int32)
  | double (value : F64)
deriving DecidableEq

/-- `js_to_number` of a value that is read. -/
def Element.toNumber : Element → F64
  | .undefined => .nan
  | .int value => i32AsF64 value
  | .double value => value

/-- `n.trunc() as i64`. -/
def truncAsI64 (n : F64) : ℤ :=
  if n.isNan then 0 else max (-2 ^ 63) (min (2 ^ 63 - 1) n.truncate)

/-- `clamp_u8_clamped`; its comparisons and its difference are exact. -/
def clampU8Clamped (n : F64) : ℕ :=
  if n.isNan ∨ n.isInfinite ∨ n.toRat ≤ 0 then 0
  else if 255 ≤ n.toRat then 255
  else
    let floor := ⌊n.toRat⌋
    let frac := n.toRat - floor
    let rounded :=
      if 1 / 2 < frac then floor + 1
      else if frac < 1 / 2 then floor
      else if floor % 2 = 0 then floor else floor + 1
    (max 0 (min 255 rounded)).toNat

/-- The bytes that `typed_array_set_element` writes for a number. -/
def elementBytes (kind : TypedArrayKind) (n : F64) : Bytes :=
  match kind with
  | .uint8 => toTwos 1 (truncAsI64 n % 256)
  | .uint8Clamped => toTwos 1 (clampU8Clamped n)
  | .int8 =>
      let v := truncAsI64 n % 256
      toTwos 1 (if 128 ≤ v then v - 256 else v)
  | .int16 =>
      let v := truncAsI64 n % 2 ^ 16
      toTwos 2 (if 2 ^ 15 ≤ v then v - 2 ^ 16 else v)
  | .uint16 => toTwos 2 (truncAsI64 n % 2 ^ 16)
  | .int32 => toTwos 4 (floatToInt32 n).toInt
  | .uint32 => toTwos 4 (floatToUint32 n).toNat
  | .float32 => toLe 4 (asF32 n)
  | .float64 => toLe 8 n.bits.toNat

/-- The value that `typed_array_get_element` makes of bytes. -/
def elementOfBytes (kind : TypedArrayKind) (bytes : Bytes) : Element :=
  match kind with
  | .uint8 | .uint8Clamped | .uint16 => .int (Int32.ofInt (fromLe bytes))
  | .int8 | .int16 | .int32 => .int (Int32.ofInt (fromTwos bytes))
  | .uint32 =>
      let v := fromLe bytes
      if v ≤ 2 ^ 31 - 1 then .int (Int32.ofInt v) else .double (.ofInt v)
  | .float32 => .double (f32AsF64 (fromLe bytes))
  | .float64 => .double ⟨UInt64.ofNat (fromLe bytes)⟩

/-! ## Views -/

/-- The buffers, each an `ArrayBufferData`. -/
abbrev Memory := List Bytes

/-- `TypedArrayData`. -/
structure TypedArrayData where
  /-- The number of the buffer. -/
  buffer : ℕ
  /-- Where the first element begins. -/
  offset : ℕ
  /-- The count of elements. -/
  length : ℕ
  /-- The kind of the elements. -/
  kind : TypedArrayKind
deriving DecidableEq

/-- Where an element begins. -/
def TypedArrayData.start (data : TypedArrayData) (idx : ℕ) : ℕ :=
  data.offset + idx * data.kind.elemSize

/-- `typed_array_get_element`. -/
def typedArrayGetElement (memory : Memory) (data : TypedArrayData) (idx : ℕ) : Element :=
  if data.length ≤ idx then .undefined
  else match memory[data.buffer]? with
    | none => .undefined
    | some bytes =>
        let size := data.kind.elemSize
        if bytes.length < data.start idx + size then .undefined
        else elementOfBytes data.kind (load bytes (data.start idx) size)

/-- `typed_array_set_element` of a value that `js_to_number` makes a number; none is
false. -/
def typedArraySetElement (memory : Memory) (data : TypedArrayData) (idx : ℕ) (n : F64) :
    Option Memory :=
  if data.length ≤ idx then none
  else match memory[data.buffer]? with
    | none => none
    | some bytes =>
        if bytes.length < data.start idx + data.kind.elemSize then none
        else some (memory.set data.buffer
          (store bytes (data.start idx) (elementBytes data.kind n)))

/-- An element that is written, or not, as the result is ignored. -/
def setElement (memory : Memory) (data : TypedArrayData) (idx : ℕ) (n : F64) : Memory :=
  (typedArraySetElement memory data idx n).getD memory

/-- The `length` property that a typed array is created with. -/
def TypedArrayData.lengthProperty (data : TypedArrayData) : Int32 := Int32.ofNat data.length

/-! ## Construction and copies -/

/-- The buffers and the views over them. -/
structure State where
  /-- The buffers. -/
  memory : Memory
  /-- The typed arrays. -/
  views : List TypedArrayData

/-- Before any buffer is made. -/
def State.empty : State := ⟨[], []⟩

/-- `create_arraybuffer`. -/
def createArraybuffer (memory : Memory) (byteLen : ℕ) : Memory :=
  memory ++ [List.replicate byteLen 0]

/-- `create_typed_array`. -/
def createTypedArray (state : State) (kind : TypedArrayKind) (buffer offset length : ℕ) : State :=
  { state with views := state.views ++ [⟨buffer, offset, length, kind⟩] }

/-- The elements that are copied one after another, each read when its turn comes. -/
def copyElements (read : Memory → ℕ → F64) (data : TypedArrayData) (offset : ℕ) :
    Memory → ℕ → ℕ → Memory
  | memory, _, 0 => memory
  | memory, idx, rest + 1 =>
      if offset + idx < data.length then
        copyElements read data offset
          (setElement memory data ((offset + idx) % 2 ^ 32) (read memory idx)) (idx + 1) rest
      else memory

/-- The numbers of an array, by index. -/
def readArray (values : List F64) (_ : Memory) (idx : ℕ) : F64 := values.getD idx .nan

/-- The numbers of a typed array, by index. -/
def readTyped (source : TypedArrayData) (memory : Memory) (idx : ℕ) : F64 :=
  (typedArrayGetElement memory source (idx % 2 ^ 32)).toNumber

/-- The arguments that a typed array is built from; numbers are read by `js_to_int32`. -/
inductive BuildArgs
  | empty
  | buffer (buffer : ℕ) (offset length : Option Int32)
  | typedArray (source : ℕ)
  | array (values : List F64)
  | length (length : Int32)

/-- The view and the buffer of elements that are copied. -/
def buildCopy (state : State) (kind : TypedArrayKind) (read : Memory → ℕ → F64) (srcLen : ℕ) :
    State :=
  let out : TypedArrayData := ⟨state.memory.length, 0, srcLen, kind⟩
  ⟨copyElements read out 0 (createArraybuffer state.memory (srcLen * kind.elemSize)) 0 srcLen,
    state.views ++ [out]⟩

/-- `build_typed_array_from_args`. -/
def buildTypedArrayFromArgs (state : State) (kind : TypedArrayKind) : BuildArgs → State
  | .empty =>
      createTypedArray { state with memory := createArraybuffer state.memory 0 } kind
        state.memory.length 0 0
  | .buffer buffer offset length =>
      match state.memory[buffer]? with
      | none => state
      | some bytes =>
          let byteLen := bytes.length
          let offset := (offset.getD 0).toInt.toNat
          let length := match length with
            | some length => length.toInt.toNat
            | none => (byteLen - offset) / kind.elemSize
          let length := if byteLen < offset then 0 else length
          createTypedArray state kind buffer offset length
  | .typedArray source =>
      match state.views[source]? with
      | none => state
      | some source => buildCopy state kind (readTyped source) source.lengthProperty.toInt.toNat
  | .array values =>
      buildCopy state kind (readArray values) (Int32.ofNat values.length).toInt.toNat
  | .length length =>
      let length := length.toInt.toNat
      createTypedArray
        { state with memory := createArraybuffer state.memory (length * kind.elemSize) } kind
        state.memory.length 0 length

/-- `i32 as usize`. -/
def asUsize (value : Int32) : ℕ := (value.toInt % 2 ^ 64).toNat

/-- `subarray`. -/
def subarray (data : TypedArrayData) (first last : Option Int32) : TypedArrayData :=
  let len := data.lengthProperty
  let first := first.getD 0
  let last := last.getD len
  let first := if first < 0 then max (len + first) 0 else first
  let last := if last < 0 then max (len + last) 0 else last
  let first := if len < first then len else first
  let last := if len < last then len else last
  let last := if last < first then first else last
  { data with
    offset := (data.offset + asUsize first * data.kind.elemSize) % 2 ^ 64
    length := asUsize (last - first) }

/-- `set` from a typed array. -/
def typedArraySet (memory : Memory) (data source : TypedArrayData) (offset : Int32) : Memory :=
  copyElements (readTyped source) data offset.toInt.toNat memory 0
    source.lengthProperty.toInt.toNat

/-- `set` from an array. -/
def typedArraySetArray (memory : Memory) (data : TypedArrayData) (values : List F64)
    (offset : Int32) : Memory :=
  copyElements (readArray values) data offset.toInt.toNat memory 0
    (Int32.ofNat values.length).toInt.toNat

/-- What a script does with buffers and views. -/
inductive Step
  | arrayBuffer (length : Int32)
  | build (kind : TypedArrayKind) (args : BuildArgs)
  | subarray (view : ℕ) (first last : Option Int32)
  | write (view idx : ℕ) (n : F64)
  | set (view source : ℕ) (offset : Int32)
  | setArray (view : ℕ) (values : List F64) (offset : Int32)

/-- One step; one that names no view does nothing. -/
def step (state : State) : Step → State
  | .arrayBuffer length =>
      { state with memory := createArraybuffer state.memory length.toInt.toNat }
  | .build kind args => buildTypedArrayFromArgs state kind args
  | .subarray view first last =>
      match state.views[view]? with
      | none => state
      | some data => { state with views := state.views ++ [subarray data first last] }
  | .write view idx n =>
      match state.views[view]? with
      | none => state
      | some data => { state with memory := setElement state.memory data idx n }
  | .set view source offset =>
      match state.views[view]?, state.views[source]? with
      | some data, some source =>
          { state with memory := typedArraySet state.memory data source offset }
      | _, _ => state
  | .setArray view values offset =>
      match state.views[view]? with
      | none => state
      | some data => { state with memory := typedArraySetArray state.memory data values offset }

/-- A run. -/
def run (state : State) (steps : List Step) : State := steps.foldl step state

/-! ## What the language asks -/

/-- A view that is aligned and inside its buffer. -/
structure InBounds (memory : Memory) (data : TypedArrayData) : Prop where
  aligned : data.kind.elemSize ∣ data.offset
  inside : ∃ bytes, memory[data.buffer]? = some bytes ∧
    data.offset + data.length * data.kind.elemSize ≤ bytes.length

/-- The integer that a number is truncated to; infinities count as zero. -/
def integerPart (n : F64) : ℤ :=
  if n.isNan = true ∨ n.isInfinite = true then 0 else n.truncate

/-- A number modulo a power of two. -/
def unsigned (width : ℕ) (n : F64) : ℤ := integerPart n % 2 ^ width

/-- A number modulo a power of two, between the least and the greatest signed integer. -/
def signed (width : ℕ) (n : F64) : ℤ :=
  (integerPart n + 2 ^ (width - 1)) % 2 ^ width - 2 ^ (width - 1)

/-- The integer from 0 to 255 that is nearest to a number, the even one of two. -/
def IsNearestByte (number : ℚ) (byte : ℕ) : Prop :=
  byte ≤ 255 ∧ ∀ other ≤ 255, other ≠ byte →
    |number - byte| < |number - other| ∨ |number - byte| = |number - other| ∧ byte % 2 = 0

/-- The integer from 0 to 255 that a number is clamped to. -/
def IsClamped (n : F64) (byte : ℕ) : Prop :=
  if n.isNan = true then byte = 0
  else if n.isInfinite = true then byte = if n.isNegative then 0 else 255
  else IsNearestByte n.toRat byte

/-- A value that is a number. -/
def Element.Holds : Element → F64 → Prop
  | .undefined, _ => False
  | .int value, n => i32AsF64 value = n
  | .double value, n => value = n

/-- An element is the number that was written, converted to the kind. -/
def IsConverted (kind : TypedArrayKind) (n : F64) (element : Element) : Prop :=
  match kind with
  | .uint8 => element.Holds (.ofInt (unsigned 8 n))
  | .uint8Clamped => ∃ byte, IsClamped n byte ∧ element.Holds (.ofInt byte)
  | .int8 => element.Holds (.ofInt (signed 8 n))
  | .int16 => element.Holds (.ofInt (signed 16 n))
  | .uint16 => element.Holds (.ofInt (unsigned 16 n))
  | .int32 => element.Holds (.ofInt (signed 32 n))
  | .uint32 => element.Holds (.ofInt (unsigned 32 n))
  | .float32 => element.Holds (f32AsF64 (asF32 n))
  | .float64 => element.Holds n

/-- A byte of a buffer. -/
def byteAt (memory : Memory) (buffer position : ℕ) : Option UInt8 :=
  memory[buffer]?.bind fun bytes => bytes[position]?

/-- Nothing but the bytes of one element differs. -/
def OnlyElement (memory after : Memory) (data : TypedArrayData) (idx : ℕ) : Prop :=
  after.map List.length = memory.map List.length ∧
    ∀ buffer position, (buffer ≠ data.buffer ∨ position < data.start idx ∨
      data.start idx + data.kind.elemSize ≤ position) →
      byteAt after buffer position = byteAt memory buffer position

/-- Numbers written one after another. -/
def writeElements (data : TypedArrayData) : Memory → ℕ → List F64 → Memory
  | memory, _, [] => memory
  | memory, idx, n :: rest => writeElements data (setElement memory data idx n) (idx + 1) rest

/-- The numbers that the first elements of a view hold. -/
def heldNumbers (memory : Memory) (source : TypedArrayData) (count : ℕ) : List F64 :=
  (List.range count).map fun idx => (typedArrayGetElement memory source idx).toNumber

/-- How many elements `set` copies. -/
def copyCount (data source : TypedArrayData) (offset : ℕ) : ℕ :=
  min source.length (data.length - offset)

/-! ## Deviations -/

/-- The cast to a 64-bit integer keeps the low bits of a number. -/
def KeepsBits (width : ℕ) (n : F64) : Prop :=
  n.isNan = true ∨ n.isInfinite = true ∧ n.isNegative = true ∨
    n.isInfinite = false ∧ n.truncate < 2 ^ 63 ∧
      (n.truncate < -2 ^ 63 → 2 ^ width ∣ n.truncate)

/-- The numbers that are converted to a kind as the language does. -/
def Converts (kind : TypedArrayKind) (n : F64) : Prop :=
  match kind with
  | .uint8 | .int8 => KeepsBits 8 n
  | .int16 | .uint16 => KeepsBits 16 n
  | .uint8Clamped => n.isInfinite = true → n.isNegative = true
  | .int32 | .uint32 | .float32 | .float64 => True

/-- A view over a buffer is built inside it, and a part of a view begins at no negative
offset, which a length of `2 ^ 31` or more can give. -/
def Step.Fits (state : State) : Step → Prop
  | .build kind (.buffer buffer offset length) =>
      ∀ bytes, state.memory[buffer]? = some bytes →
        kind.elemSize ∣ (offset.getD 0).toInt.toNat ∧
          (offset.getD 0).toInt.toNat ≤ bytes.length ∧
          ∀ count, length = some count →
            (offset.getD 0).toInt.toNat + count.toInt.toNat * kind.elemSize ≤ bytes.length
  | .subarray view _ _ =>
      ∀ data, state.views[view]? = some data →
        0 ≤ (data.offset : ℤ) + data.lengthProperty.toInt * data.kind.elemSize
  | _ => True

/-- Every step of a run fits. -/
def AllFit : State → List Step → Prop
  | _, [] => True
  | state, next :: rest => next.Fits state ∧ AllFit (step state next) rest

/-- The element that a copy reads is still the old one, after the ones before it. -/
def ReadsOld (memory : Memory) (data source : TypedArrayData) (offset idx : ℕ) : Prop :=
  elementBytes data.kind (typedArrayGetElement
      (writeElements data memory offset (heldNumbers memory source idx)) source idx).toNumber =
    elementBytes data.kind (typedArrayGetElement memory source idx).toNumber

/-- The bytes of an element. -/
def loadElement (memory : Memory) (data : TypedArrayData) (idx : ℕ) : Bytes :=
  load (memory.getD data.buffer []) (data.start idx) data.kind.elemSize

/-- The element that a copy leaves is the old one; elements from the length on that a
script sees are not copied. -/
def CopiesOld (memory : Memory) (data source : TypedArrayData) (offset idx : ℕ) : Prop :=
  if idx < source.lengthProperty.toInt.toNat then ReadsOld memory data source offset idx
  else loadElement memory data (offset + idx) =
    elementBytes data.kind (typedArrayGetElement memory source idx).toNumber

/-- An element that is written is apart from one that is read later. -/
def Apart (data source : TypedArrayData) (offset written read : ℕ) : Prop :=
  data.start (offset + written) + data.kind.elemSize ≤ source.start read ∨
    source.start read + source.kind.elemSize ≤ data.start (offset + written)

/-! ## Conversions -/

section Conversion

variable (n : F64)

/-- A double from `2 ^ 63` on is even. -/
theorem truncate_even (large : 2 ^ 63 ≤ n.truncate) : n.truncate % 2 = 0 := by
  have isSignificand : n.significand < 2 ^ 53 := by
    have isFraction := Nat.mod_lt n.magnitude (show 0 < 2 ^ 52 by decide)
    rw [F64.significand]
    split <;> omega
  rw [F64.truncate] at large ⊢
  have isDivided := Nat.div_le_self n.significand
    (2 ^ (1075 - max (n.magnitude / 2 ^ 52) 1))
  by_cases isPositive : n.isNegative = true
  · rw [if_pos isPositive] at large
    omega
  · rw [if_neg isPositive] at large ⊢
    by_cases isLarge : 1075 ≤ n.magnitude / 2 ^ 52
    · rw [if_pos isLarge] at large ⊢
      obtain isLeast | isMore := isLarge.eq_or_lt
      · rw [← isLeast, Nat.sub_self, pow_zero, mul_one] at large
        omega
      · obtain ⟨more, isPower⟩ := Nat.exists_eq_add_of_lt isMore
        rw [isPower, show 1075 + more + 1 - 1075 = more + 1 by omega, pow_succ, ← mul_assoc]
        omega
    · rw [if_neg isLarge] at large
      omega

/-- The cast keeps the low bits of a number exactly when it stays in range. -/
theorem truncAsI64_iff {width : ℕ} (isByte : width = 8 ∨ width = 16) :
    truncAsI64 n % 2 ^ width = unsigned width n ↔ KeepsBits width n := by
  have isInfinity := truncate_of_isInfinite n
  have isEven := truncate_even n
  rw [truncAsI64, unsigned, integerPart, KeepsBits]
  obtain rfl | rfl := isByte <;>
  cases n.isNan <;> cases hasInfinity : n.isInfinite <;> cases hasSign : n.isNegative <;>
    simp only [hasInfinity, hasSign, Bool.false_eq_true, if_false, if_true, true_or, or_true,
      false_or, or_false, true_and, false_and, Bool.true_eq_false, forall_true_left, and_false,
      and_self, iff_true, iff_false] at isInfinity ⊢ <;>
    omega

theorem natAbs_unsigned {width : ℕ} (small : width ≤ 32) :
    0 ≤ unsigned width n ∧ unsigned width n < 2 ^ 32 := by
  have isPower : (2 : ℤ) ^ width ≤ 2 ^ 32 := pow_le_pow_right₀ (by norm_num) small
  have positive : (0 : ℤ) < 2 ^ width := by positivity
  exact ⟨Int.emod_nonneg _ positive.ne', (Int.emod_lt_of_pos _ positive).trans_le isPower⟩

end Conversion

/-- An element that holds an integer in 32 bits. -/
theorem holds_int_iff {z y : ℤ} (low : -2 ^ 31 ≤ z) (high : z < 2 ^ 31)
    (small : y.natAbs < 2 ^ 52) :
    Element.Holds (.int (Int32.ofInt z)) (.ofInt y) ↔ z = y := by
  have isValue : (Int32.ofInt z).toInt = z :=
    Int32.toInt_ofInt_of_le low (by omega)
  rw [Element.Holds, ← F64.ofInt_toInt, isValue]
  constructor
  · intro same
    have isTruncated := congrArg F64.truncate same
    rwa [F64.truncate_ofInt (by omega), F64.truncate_ofInt small] at isTruncated
  · rintro rfl
    rfl

/-! ## Clamping -/

/-- An integer at most a half away, and even at a half, is the nearest. -/
theorem isNearestByte_of {number : ℚ} {byte : ℕ} (isByte : byte ≤ 255)
    (close : |number - byte| ≤ 1 / 2) (isEven : |number - byte| = 1 / 2 → byte % 2 = 0) :
    IsNearestByte number byte := by
  refine ⟨isByte, fun other _ differs => ?_⟩
  have apart : (1 : ℚ) ≤ |(other : ℚ) - byte| := by
    have isInteger : (1 : ℤ) ≤ |(other : ℤ) - byte| := Int.one_le_abs (by omega)
    exact_mod_cast isInteger
  have triangle : |(other : ℚ) - byte| ≤ |(other : ℚ) - number| + |number - byte| :=
    abs_sub_le _ _ _
  rw [abs_sub_comm (other : ℚ) number] at triangle
  obtain isLess | isHalf := close.lt_or_eq
  · exact .inl (by linarith)
  · obtain isMore | same := (show |number - byte| ≤ |number - other| by linarith).lt_or_eq
    · exact .inl isMore
    · exact .inr ⟨same, isEven isHalf⟩

/-- A number that is not positive is nearest to zero. -/
theorem isNearestByte_zero {number : ℚ} (isLow : number ≤ 0) : IsNearestByte number 0 := by
  refine ⟨by decide, fun other _ differs => .inl ?_⟩
  have positive : (1 : ℚ) ≤ other := by exact_mod_cast Nat.one_le_iff_ne_zero.mpr differs
  rw [Nat.cast_zero, sub_zero, abs_of_nonpos isLow, abs_of_neg (by linarith)]
  linarith

/-- A number from 255 on is nearest to 255. -/
theorem isNearestByte_max {number : ℚ} (isHigh : 255 ≤ number) : IsNearestByte number 255 := by
  refine ⟨le_refl _, fun other isByte differs => .inl ?_⟩
  have isLess : (other : ℚ) < 255 := by exact_mod_cast lt_of_le_of_ne isByte differs
  rw [Nat.cast_ofNat, abs_of_nonneg (by linarith), abs_of_pos (by linarith)]
  linarith

theorem isNearestByte_clamp {n : F64} (notNan : n.isNan = false) (finite : n.isInfinite = false) :
    IsNearestByte n.toRat (clampU8Clamped n) := by
  rw [clampU8Clamped, notNan, finite]
  generalize n.toRat = number
  simp only [Bool.false_eq_true, false_or]
  split
  case isTrue isLow => exact isNearestByte_zero isLow
  case isFalse notLow =>
    split
    case isTrue isHigh => exact isNearestByte_max isHigh
    case isFalse notHigh =>
      have isFloor := Int.floor_le number
      have isBelow := Int.lt_floor_add_one number
      have nonneg : 0 ≤ ⌊number⌋ := Int.floor_nonneg.mpr (not_le.mp notLow).le
      have small : ⌊number⌋ < 255 := Int.floor_lt.mpr (by exact_mod_cast not_le.mp notHigh)
      obtain ⟨whole, isWhole⟩ := Int.eq_ofNat_of_zero_le nonneg
      rw [isWhole] at isFloor isBelow small ⊢
      push_cast at isFloor isBelow ⊢
      have isUp : (max 0 (min 255 ((whole : ℤ) + 1))).toNat = whole + 1 := by omega
      have isDown : (max 0 (min 255 (whole : ℤ))).toNat = whole := by omega
      by_cases isMore : 1 / 2 < number - whole
      · rw [if_pos isMore, isUp]
        refine isNearestByte_of (by omega) ?_ fun isHalf => ?_
        all_goals
          push_cast at *
          rw [abs_of_nonpos (by linarith)] at *
        · linarith
        · linarith
      · rw [if_neg isMore]
        by_cases isLess : number - whole < 1 / 2
        · rw [if_pos isLess, isDown]
          refine isNearestByte_of (by omega) ?_ fun isHalf => ?_
          all_goals rw [abs_of_nonneg (by linarith)] at *
          · linarith
          · linarith
        · rw [if_neg isLess]
          by_cases isEven : (whole : ℤ) % 2 = 0
          · rw [if_pos isEven, isDown]
            refine isNearestByte_of (by omega) ?_ fun _ => by omega
            rw [abs_of_nonneg (by linarith)]
            linarith
          · rw [if_neg isEven, isUp]
            refine isNearestByte_of (by omega) ?_ fun _ => by omega
            push_cast
            rw [abs_of_nonpos (by linarith)]
            linarith

theorem clampU8Clamped_le (n : F64) : clampU8Clamped n ≤ 255 := by
  rw [clampU8Clamped]
  split
  · exact Nat.zero_le _
  · split
    · exact le_refl _
    · dsimp only
      omega

theorem IsClamped.le {n : F64} {byte : ℕ} (isClamped : IsClamped n byte) : byte ≤ 255 := by
  rw [IsClamped] at isClamped
  split at isClamped
  · omega
  · split at isClamped
    · split at isClamped <;> omega
    · exact isClamped.1

theorem isClamped_iff (n : F64) :
    IsClamped n (clampU8Clamped n) ↔ (n.isInfinite = true → n.isNegative = true) := by
  rw [IsClamped]
  cases notNan : n.isNan with
  | true =>
      have finite : n.isInfinite = false := by
        rw [F64.isNan, decide_eq_true_iff] at notNan
        exact decide_eq_false (by omega)
      rw [if_pos rfl, clampU8Clamped, notNan, finite]
      simp
  | false =>
      rw [if_neg Bool.false_ne_true]
      cases finite : n.isInfinite with
      | true =>
          rw [if_pos rfl, clampU8Clamped, finite]
          cases n.isNegative <;> simp
      | false =>
          rw [if_neg Bool.false_ne_true]
          exact iff_of_true (isNearestByte_clamp notNan finite) (fun isTrue => by cases isTrue)

/-! ## What is read back -/

section ReadBack

variable (n : F64)

theorem asF32_lt : asF32 n < 2 ^ 32 := by
  have isNearest : Binary32.nearest n.absRat ≤ Binary32.infinityBits := by
    rw [Binary32.nearest]
    split
    · exact Nat.zero_le _
    · exact min_le_left _ _
  have isBits : Binary32.infinityBits = 255 * 2 ^ 23 := rfl
  rw [asF32]
  split <;> split <;> (try split) <;> omega

/-- A byte or two without a sign. -/
theorem holds_unsigned_iff {width bits : ℕ} (isWidth : width = 1 ∧ bits = 8 ∨ width = 2 ∧ bits = 16)
    (z : ℤ) :
    Element.Holds (.int (Int32.ofInt (fromLe (toTwos width z)))) (.ofInt (unsigned bits n)) ↔
      z % 2 ^ bits = unsigned bits n := by
  have isRead := ByteStore.fromLe_toTwos width z
  have isPower : (256 : ℤ) ^ width = 2 ^ bits := by
    obtain ⟨rfl, rfl⟩ | ⟨rfl, rfl⟩ := isWidth <;> norm_num
  have isBits : bits ≤ 16 := by omega
  have isSmall : (2 : ℤ) ^ bits ≤ 2 ^ 16 := pow_le_pow_right₀ (by norm_num) isBits
  have positive : (0 : ℤ) < 2 ^ bits := by positivity
  have range := natAbs_unsigned n (isBits.trans (by decide))
  have nonneg := Int.emod_nonneg z positive.ne'
  have below := Int.emod_lt_of_pos z positive
  rw [isRead, isPower, holds_int_iff (by omega) (by omega) (by omega)]

/-- A byte or more with a sign. -/
theorem holds_signed_iff {width bits : ℕ}
    (isWidth : width = 1 ∧ bits = 8 ∨ width = 2 ∧ bits = 16 ∨ width = 4 ∧ bits = 32) (z : ℤ) :
    Element.Holds (.int (Int32.ofInt (fromTwos (toTwos width z)))) (.ofInt (signed bits n)) ↔
      z % 2 ^ bits = unsigned bits n := by
  rw [ByteStore.fromTwos_toTwos, unsigned, signed]
  generalize integerPart n = whole
  obtain ⟨rfl, rfl⟩ | ⟨rfl, rfl⟩ | ⟨rfl, rfl⟩ := isWidth
  all_goals
    norm_num only
    rw [holds_int_iff (by split <;> omega) (by split <;> omega) (by omega)]
    split <;> omega

/-- The bytes of a number are read back as the number converted to the kind. -/
theorem isConverted_iff (kind : TypedArrayKind) :
    IsConverted kind n (elementOfBytes kind (elementBytes kind n)) ↔ Converts kind n := by
  have isUnsigned := toNat_floatToUint32 n
  have isSigned := toInt_floatToInt32 n
  cases kind with
  | uint8 =>
      rw [IsConverted, elementOfBytes, elementBytes, holds_unsigned_iff n (by simp), Converts,
        ← truncAsI64_iff n (.inl rfl)]
      omega
  | uint8Clamped =>
      rw [IsConverted, elementOfBytes, elementBytes, Converts, ← isClamped_iff]
      have isRead := ByteStore.fromLe_toTwos 1 (clampU8Clamped n)
      have isByte := clampU8Clamped_le n
      rw [isRead, pow_one, Int.emod_eq_of_lt (by omega) (by omega)]
      constructor
      · rintro ⟨byte, isClamped, holds⟩
        have isSmall := isClamped.le
        rw [holds_int_iff (by omega) (by omega) (by omega), Nat.cast_inj] at holds
        rwa [holds]
      · intro isClamped
        exact ⟨_, isClamped, (holds_int_iff (by omega) (by omega) (by omega)).mpr rfl⟩
  | int8 =>
      rw [IsConverted, elementOfBytes, elementBytes, holds_signed_iff n (by simp), Converts,
        ← truncAsI64_iff n (.inl rfl)]
      split <;> omega
  | int16 =>
      rw [IsConverted, elementOfBytes, elementBytes, holds_signed_iff n (by simp), Converts,
        ← truncAsI64_iff n (.inr rfl)]
      split <;> omega
  | uint16 =>
      rw [IsConverted, elementOfBytes, elementBytes, holds_unsigned_iff n (by simp), Converts,
        ← truncAsI64_iff n (.inr rfl)]
      omega
  | int32 =>
      rw [IsConverted, elementOfBytes, elementBytes, holds_signed_iff n (by simp), isSigned,
        unsigned, integerPart]
      refine iff_of_true ?_ trivial
      split <;> omega
  | uint32 =>
      have isRead := ByteStore.fromLe_toTwos 4 (floatToUint32 n).toNat
      have inRange := (floatToUint32 n).toNat_lt
      have isNumber : ((floatToUint32 n).toNat : ℤ) = unsigned 32 n := by
        rw [isUnsigned, unsigned, integerPart]
        split <;> omega
      rw [Int.emod_eq_of_lt (by omega) (by omega), Nat.cast_inj] at isRead
      rw [IsConverted, elementOfBytes, elementBytes, isRead, ← isNumber]
      refine iff_of_true ?_ trivial
      split
      · exact (holds_int_iff (by omega) (by omega) (by omega)).mpr rfl
      · exact rfl
  | float32 =>
      rw [IsConverted, elementOfBytes, elementBytes,
        ByteStore.fromLe_toLe_of_lt ((asF32_lt n).trans_eq (by norm_num))]
      exact iff_of_true rfl trivial
  | float64 =>
      have isBits : n.bits.toNat < 256 ^ 8 := n.bits.toNat_lt.trans_le (by norm_num)
      rw [IsConverted, elementOfBytes, elementBytes, ByteStore.fromLe_toLe_of_lt isBits,
        UInt64.ofNat_toNat]
      exact iff_of_true rfl trivial

end ReadBack

/-! ## Writing an element -/

theorem length_elementBytes (kind : TypedArrayKind) (n : F64) :
    (elementBytes kind n).length = kind.elemSize := by
  cases kind <;> exact ByteStore.length_toLe _ _

/-- An element below the length lies inside the view. -/
theorem start_add_le (data : TypedArrayData) {idx : ℕ} (isIndex : idx < data.length) :
    data.start idx + data.kind.elemSize ≤ data.offset + data.length * data.kind.elemSize := by
  have isLast := Nat.mul_le_mul_right data.kind.elemSize (Nat.succ_le_of_lt isIndex)
  rw [Nat.succ_mul] at isLast
  rw [TypedArrayData.start]
  omega

/-- Different elements of a view are apart. -/
theorem start_disjoint (data : TypedArrayData) {i j : ℕ} (less : i < j) :
    data.start i + data.kind.elemSize ≤ data.start j := by
  have isNext := Nat.mul_le_mul_right data.kind.elemSize (Nat.succ_le_of_lt less)
  rw [Nat.succ_mul] at isNext
  rw [TypedArrayData.start, TypedArrayData.start]
  omega

/-- An element that is written, or not. -/
theorem setElement_cases (memory : Memory) (data : TypedArrayData) (idx : ℕ) (n : F64) :
    typedArraySetElement memory data idx n = none ∨
      ∃ bytes, memory[data.buffer]? = some bytes ∧
        data.start idx + data.kind.elemSize ≤ bytes.length ∧
        typedArraySetElement memory data idx n = some (memory.set data.buffer
          (store bytes (data.start idx) (elementBytes data.kind n))) := by
  rw [typedArraySetElement]
  by_cases isIndex : data.length ≤ idx
  · exact .inl (if_pos isIndex)
  · rw [if_neg isIndex]
    cases isBuffer : memory[data.buffer]? with
    | none => exact .inl rfl
    | some bytes =>
        dsimp only
        by_cases isShort : bytes.length < data.start idx + data.kind.elemSize
        · exact .inl (if_pos isShort)
        · exact .inr ⟨bytes, rfl, not_lt.mp isShort, if_neg isShort⟩

/-- A write keeps the lengths of the buffers. -/
theorem sizes_setElement (memory : Memory) (data : TypedArrayData) (idx : ℕ) (n : F64) :
    (setElement memory data idx n).map List.length = memory.map List.length := by
  rw [setElement]
  obtain isNone | ⟨bytes, isBuffer, inside, isSome⟩ := setElement_cases memory data idx n
  · rw [isNone, Option.getD_none]
  · rw [← length_elementBytes data.kind n] at inside
    obtain ⟨isPlace, rfl⟩ := List.getElem?_eq_some_iff.mp isBuffer
    have isMapped : data.buffer < (memory.map List.length).length := by
      rwa [List.length_map]
    rw [isSome, Option.getD_some, List.map_set, ByteStore.length_store inside,
      ← List.getElem_map List.length (h := isMapped), List.set_getElem_self]

section Write

variable {memory : Memory} {data : TypedArrayData} {idx : ℕ}

/-- A view is in bounds whatever its buffer holds. -/
theorem InBounds.congr {after : Memory} (inBounds : InBounds memory data)
    (same : after.map List.length = memory.map List.length) : InBounds after data := by
  obtain ⟨aligned, bytes, isBuffer, inside⟩ := inBounds
  have isLength : (after.map List.length)[data.buffer]? = some bytes.length := by
    rw [same, List.getElem?_map, isBuffer, Option.map_some]
  rw [List.getElem?_map, Option.map_eq_some_iff] at isLength
  obtain ⟨held, isHeld, sameLength⟩ := isLength
  exact ⟨aligned, held, isHeld, sameLength ▸ inside⟩

/-- Every element of a view in bounds can be written. -/
theorem InBounds.setElement_eq (inBounds : InBounds memory data) (isIndex : idx < data.length)
    (n : F64) :
    ∃ bytes, memory[data.buffer]? = some bytes ∧
      data.start idx + data.kind.elemSize ≤ bytes.length ∧
      typedArraySetElement memory data idx n = some (memory.set data.buffer
        (store bytes (data.start idx) (elementBytes data.kind n))) := by
  obtain ⟨-, bytes, isBuffer, inside⟩ := inBounds
  have isInside := (start_add_le data isIndex).trans inside
  refine ⟨bytes, isBuffer, isInside, ?_⟩
  rw [typedArraySetElement, if_neg (not_le.mpr isIndex), isBuffer]
  exact if_neg (not_lt.mpr isInside)

/-- Every element of a view in bounds can be read. -/
theorem InBounds.getElement_eq (inBounds : InBounds memory data) (isIndex : idx < data.length) :
    ∃ bytes, memory[data.buffer]? = some bytes ∧
      data.start idx + data.kind.elemSize ≤ bytes.length ∧
      typedArrayGetElement memory data idx =
        elementOfBytes data.kind (load bytes (data.start idx) data.kind.elemSize) := by
  obtain ⟨-, bytes, isBuffer, inside⟩ := inBounds
  have isInside := (start_add_le data isIndex).trans inside
  refine ⟨bytes, isBuffer, isInside, ?_⟩
  rw [typedArrayGetElement, if_neg (not_le.mpr isIndex), isBuffer]
  exact if_neg (not_lt.mpr isInside)

theorem InBounds.getElement_eq_load (inBounds : InBounds memory data)
    (isIndex : idx < data.length) :
    typedArrayGetElement memory data idx = elementOfBytes data.kind (loadElement memory data idx) := by
  obtain ⟨bytes, isBuffer, -, isElement⟩ := inBounds.getElement_eq isIndex
  rw [isElement, loadElement, List.getD_eq_getElem?_getD, isBuffer, Option.getD_some]

/-- A write is read back. -/
theorem InBounds.loadElement_setElement (inBounds : InBounds memory data)
    (isIndex : idx < data.length) (n : F64) :
    loadElement (setElement memory data idx n) data idx = elementBytes data.kind n := by
  obtain ⟨bytes, isBuffer, inside, isSome⟩ := inBounds.setElement_eq isIndex n
  have isPlace := (List.getElem?_eq_some_iff.mp isBuffer).1
  rw [setElement, isSome, Option.getD_some, loadElement, List.getD_eq_getElem?_getD,
    List.getElem?_set_self isPlace, Option.getD_some]
  have isStored := ByteStore.load_store
    (show data.start idx + (elementBytes data.kind n).length ≤ bytes.length by
      rwa [length_elementBytes])
  rwa [length_elementBytes] at isStored

/-- A write does not touch an element elsewhere. -/
theorem loadElement_setElement_of_apart {source : TypedArrayData} {other : ℕ} (n : F64)
    (apart : source.buffer ≠ data.buffer ∨
      source.start other + source.kind.elemSize ≤ data.start idx ∨
      data.start idx + data.kind.elemSize ≤ source.start other) :
    loadElement (setElement memory data idx n) source other = loadElement memory source other := by
  rw [setElement]
  obtain isNone | ⟨bytes, isBuffer, inside, isSome⟩ := setElement_cases memory data idx n
  · rw [isNone, Option.getD_none]
  · have isPlace := (List.getElem?_eq_some_iff.mp isBuffer).1
    rw [isSome, Option.getD_some, loadElement, loadElement, List.getD_eq_getElem?_getD,
      List.getD_eq_getElem?_getD]
    by_cases isSame : source.buffer = data.buffer
    · rw [isSame, List.getElem?_set_self isPlace, isBuffer, Option.getD_some, Option.getD_some]
      rw [← length_elementBytes data.kind n] at inside apart
      exact ByteStore.load_store_of_disjoint inside (apart.resolve_left (not_not_intro isSame))
    · rw [List.getElem?_set_ne (Ne.symm isSame)]

/-- A write changes no other byte. -/
theorem onlyElement_setElement (n : F64) :
    OnlyElement memory (setElement memory data idx n) data idx := by
  refine ⟨sizes_setElement memory data idx n, fun buffer position outside => ?_⟩
  rw [setElement]
  obtain isNone | ⟨bytes, isBuffer, inside, isSome⟩ := setElement_cases memory data idx n
  · rw [isNone, Option.getD_none]
  · have isPlace := (List.getElem?_eq_some_iff.mp isBuffer).1
    rw [isSome, Option.getD_some, byteAt, byteAt]
    by_cases isSame : buffer = data.buffer
    · rw [isSame, List.getElem?_set_self isPlace, isBuffer, Option.bind_some, Option.bind_some]
      rw [← length_elementBytes data.kind n] at inside outside
      exact ByteStore.getElem?_store inside (outside.resolve_left (not_not_intro isSame))
    · rw [List.getElem?_set_ne (Ne.symm isSame)]

end Write

/-! ## Runs -/

/-- Every view is inside its buffer. -/
def State.Inside (state : State) : Prop := ∀ view ∈ state.views, InBounds state.memory view

/-- Every view is over a buffer, and no buffer is longer than the elements that an array
may have. -/
structure State.Sized (state : State) : Prop where
  known : ∀ view ∈ state.views, view.buffer < state.memory.length
  small : ∀ size ∈ state.memory.map List.length, size < 2 ^ 34

/-- The buffers keep their lengths, and others may be added. -/
def Grows (memory after : Memory) : Prop := memory.map List.length <+: after.map List.length

theorem Grows.refl (memory : Memory) : Grows memory memory := List.prefix_refl _

theorem Grows.of_sizes {memory after : Memory}
    (same : after.map List.length = memory.map List.length) : Grows memory after := by
  rw [Grows, same]

theorem grows_createArraybuffer (memory : Memory) (byteLen : ℕ) :
    Grows memory (createArraybuffer memory byteLen) := by
  rw [Grows, createArraybuffer, List.map_append]
  exact List.prefix_append _ _

theorem Grows.trans {memory middle after : Memory} (first : Grows memory middle)
    (second : Grows middle after) : Grows memory after :=
  List.IsPrefix.trans first second

theorem Grows.length_le {memory after : Memory} (grows : Grows memory after) :
    memory.length ≤ after.length := by
  have isLess := List.IsPrefix.length_le grows
  rwa [List.length_map, List.length_map] at isLess

/-- Whether a view is inside its buffer does not change as buffers grow in number. -/
theorem Grows.inBounds_iff {memory after : Memory} (grows : Grows memory after)
    {data : TypedArrayData} (known : data.buffer < memory.length) :
    InBounds after data ↔ InBounds memory data := by
  have isSame : (after.map List.length)[data.buffer]? = (memory.map List.length)[data.buffer]? := by
    obtain ⟨more, isMore⟩ := grows
    rw [← isMore, List.getElem?_append_left (by rwa [List.length_map])]
  rw [List.getElem?_map, List.getElem?_map] at isSame
  constructor
  · rintro ⟨aligned, bytes, isBuffer, inside⟩
    rw [isBuffer, Option.map_some] at isSame
    obtain ⟨held, isHeld, sameLength⟩ := Option.map_eq_some_iff.mp isSame.symm
    exact ⟨aligned, held, isHeld, sameLength ▸ inside⟩
  · rintro ⟨aligned, bytes, isBuffer, inside⟩
    rw [isBuffer, Option.map_some] at isSame
    obtain ⟨held, isHeld, sameLength⟩ := Option.map_eq_some_iff.mp isSame
    exact ⟨aligned, held, isHeld, sameLength ▸ inside⟩

/-- Views that are added have to be inside their buffers. -/
theorem State.Sized.inside_iff {state : State} (sized : state.Sized) {after : Memory}
    (grows : Grows state.memory after) (added : List TypedArrayData) :
    State.Inside ⟨after, state.views ++ added⟩ ↔
      state.Inside ∧ ∀ view ∈ added, InBounds after view := by
  constructor
  · intro inside
    refine ⟨fun view isView => ?_, fun view isView =>
      inside view (List.mem_append_right _ isView)⟩
    exact (grows.inBounds_iff (sized.known view isView)).mp
      (inside view (List.mem_append_left _ isView))
  · rintro ⟨inside, isAdded⟩ view isView
    obtain isOld | isNew := List.mem_append.mp isView
    · exact (grows.inBounds_iff (sized.known view isOld)).mpr (inside view isOld)
    · exact isAdded view isNew

/-- A copy keeps the lengths of the buffers. -/
theorem sizes_copyElements (read : Memory → ℕ → F64) (data : TypedArrayData) (offset : ℕ)
    (memory : Memory) (idx rest : ℕ) :
    (copyElements read data offset memory idx rest).map List.length =
      memory.map List.length := by
  induction rest generalizing memory idx with
  | zero => rw [copyElements]
  | succ rest ih =>
      rw [copyElements]
      split
      · rw [ih, sizes_setElement]
      · rfl

theorem toNat_toInt_lt (value : Int32) : value.toInt.toNat < 2 ^ 31 := by
  have isBelow := value.toInt_lt
  omega

/-- The view over a new buffer. -/
theorem inBounds_new {memory after : Memory} {byteLen : ℕ}
    (same : after.map List.length = (createArraybuffer memory byteLen).map List.length)
    (kind : TypedArrayKind) {length : ℕ} (fits : length * kind.elemSize ≤ byteLen) :
    InBounds after ⟨memory.length, 0, length, kind⟩ := by
  refine InBounds.congr ⟨dvd_zero _, List.replicate byteLen 0, ?_, ?_⟩ same
  · exact List.getElem?_concat_length
  · rw [zero_add, List.length_replicate]
    exact fits

/-- A position that is counted from the end is not negative. -/
theorem counted_nonneg (len position : Int32) :
    0 ≤ (if position < 0 then max (len + position) 0 else position).toInt := by
  split
  case isTrue =>
    have isMax : max (len + position) 0 = if len + position ≤ 0 then 0 else len + position := rfl
    rw [isMax]
    split
    case isTrue => exact le_refl _
    case isFalse isPositive =>
      rw [Int32.le_iff_toInt_le, Int32.toInt_zero] at isPositive
      omega
  case isFalse notNegative =>
    rw [Int32.lt_iff_toInt_lt, Int32.toInt_zero] at notNegative
    omega

/-- A position that is not negative as an index. -/
theorem asUsize_of_nonneg {value : Int32} (nonneg : 0 ≤ value.toInt) :
    asUsize value = value.toInt.toNat := by
  have isBelow := value.toInt_lt
  rw [asUsize, Int.emod_eq_of_lt nonneg (by omega)]

/-- A part of a view whose length is read as it is, or as a smaller one. -/
theorem subarray_eq (data : TypedArrayData) (nonneg : 0 ≤ data.lengthProperty.toInt)
    (first last : Option Int32) :
    ∃ begin count, begin + count ≤ data.lengthProperty.toInt.toNat ∧
      subarray data first last = { data with
        offset := (data.offset + begin * data.kind.elemSize) % 2 ^ 64, length := count } := by
  rw [subarray]
  have isFirst := counted_nonneg data.lengthProperty (first.getD 0)
  have isLast := counted_nonneg data.lengthProperty (last.getD data.lengthProperty)
  generalize data.lengthProperty = len at *
  generalize (if first.getD 0 < 0 then max (len + first.getD 0) 0 else first.getD 0) = low at *
  generalize (if last.getD len < 0 then max (len + last.getD len) 0 else last.getD len) = high at *
  have isBegin : 0 ≤ (if len < low then len else low).toInt ∧
      (if len < low then len else low).toInt ≤ len.toInt := by
    split
    case isTrue => exact ⟨nonneg, le_refl _⟩
    case isFalse notMore => exact ⟨isFirst, not_lt.mp (Int32.lt_iff_toInt_lt.not.mp notMore)⟩
  have isEnd : (if len < high then len else high).toInt ≤ len.toInt := by
    split
    case isTrue => exact le_refl _
    case isFalse notMore => exact not_lt.mp (Int32.lt_iff_toInt_lt.not.mp notMore)
  generalize (if len < low then len else low) = begin at *
  generalize (if len < high then len else high) = finish at *
  have isStop : begin.toInt ≤ (if finish < begin then begin else finish).toInt ∧
      (if finish < begin then begin else finish).toInt ≤ len.toInt := by
    split
    case isTrue => exact ⟨le_refl _, isBegin.2⟩
    case isFalse notLess => exact ⟨not_lt.mp (Int32.lt_iff_toInt_lt.not.mp notLess), isEnd⟩
  generalize (if finish < begin then begin else finish) = stop at *
  have isBelow := len.toInt_lt
  have isCount : (stop - begin).toInt = stop.toInt - begin.toInt := by
    rw [Int32.toInt_sub]
    exact Int.bmod_eq_of_le (by omega) (by omega)
  refine ⟨begin.toInt.toNat, (stop - begin).toInt.toNat, by omega, ?_⟩
  rw [asUsize_of_nonneg isBegin.1, asUsize_of_nonneg (by omega)]

/-- A part of a view whose length is read as a negative integer. -/
theorem subarray_eq_of_neg (data : TypedArrayData) (isNegative : data.lengthProperty.toInt < 0)
    (first last : Option Int32) :
    subarray data first last = { data with
      offset := (data.offset + asUsize data.lengthProperty * data.kind.elemSize) % 2 ^ 64,
      length := 0 } := by
  rw [subarray]
  have isFirst := counted_nonneg data.lengthProperty (first.getD 0)
  have isLast := counted_nonneg data.lengthProperty (last.getD data.lengthProperty)
  generalize data.lengthProperty = len at *
  rw [if_pos (Int32.lt_iff_toInt_lt.mpr (isNegative.trans_le isFirst)),
    if_pos (Int32.lt_iff_toInt_lt.mpr (isNegative.trans_le isLast)),
    if_neg Int32.lt_irrefl, Int32.sub_self]
  rfl

/-- The length that a script sees is not more than the length. -/
theorem TypedArrayData.lengthProperty_range (data : TypedArrayData) :
    -2 ^ 31 ≤ data.lengthProperty.toInt ∧ data.lengthProperty.toInt ≤ data.length := by
  refine ⟨Int32.le_toInt _, ?_⟩
  have isSize : Int32.size = 2 ^ 32 := rfl
  rw [lengthProperty, Int32.toInt_ofNat', Int.bmod_def, isSize]
  split <;> omega

theorem TypedArrayKind.elemSize_le (kind : TypedArrayKind) : kind.elemSize ≤ 8 := by
  cases kind <;> decide

/-- Where a part begins when the length is read as a negative integer. -/
theorem offset_of_neg (data : TypedArrayData) (isNegative : data.lengthProperty.toInt < 0) :
    (data.offset + asUsize data.lengthProperty * data.kind.elemSize) % 2 ^ 64 =
      ((data.offset + data.lengthProperty.toInt * data.kind.elemSize) % 2 ^ 64).toNat := by
  have isLeast := data.lengthProperty_range.1
  have isIndex : (asUsize data.lengthProperty : ℤ) = data.lengthProperty.toInt + 2 ^ 64 := by
    rw [asUsize]
    omega
  have isTotal : ((data.offset + asUsize data.lengthProperty * data.kind.elemSize : ℕ) : ℤ) =
      data.offset + data.lengthProperty.toInt * data.kind.elemSize +
        2 ^ 64 * data.kind.elemSize := by
    push_cast
    rw [isIndex]
    ring
  have isRest := congrArg (· % (2 ^ 64 : ℤ)) isTotal
  rw [Int.add_mul_emod_self_left] at isRest
  rw [← isRest]
  omega

/-- A part of a view in bounds is in bounds when it begins at no negative offset. -/
theorem inBounds_subarray_iff {memory : Memory} {data : TypedArrayData}
    (inBounds : InBounds memory data)
    (small : ∀ size ∈ memory.map List.length, size < 2 ^ 34) (first last : Option Int32) :
    InBounds memory (subarray data first last) ↔
      0 ≤ (data.offset : ℤ) + data.lengthProperty.toInt * data.kind.elemSize := by
  obtain ⟨aligned, bytes, isBuffer, inside⟩ := inBounds
  have isSmall := small bytes.length (List.mem_map_of_mem (List.mem_of_getElem? isBuffer))
  obtain ⟨isLeast, isRead⟩ := data.lengthProperty_range
  by_cases isNegative : data.lengthProperty.toInt < 0
  · have isSize := data.kind.elemSize_le
    have isPart := subarray_eq_of_neg data isNegative first last
    rw [offset_of_neg data isNegative] at isPart
    generalize data.lengthProperty.toInt = len at *
    have isBack : -2 ^ 34 ≤ len * data.kind.elemSize := by nlinarith
    have isMinus : len * data.kind.elemSize ≤ 0 :=
      mul_nonpos_of_nonpos_of_nonneg isNegative.le (Nat.cast_nonneg _)
    rw [isPart]
    constructor
    · rintro ⟨-, held, isHeld, fits⟩
      rw [isBuffer] at isHeld
      cases isHeld
      dsimp only at fits
      omega
    · intro nonneg
      refine ⟨?_, bytes, isBuffer, by dsimp only; omega⟩
      have isTotal : ((data.offset + len * data.kind.elemSize) % 2 ^ 64).toNat =
          data.offset + len * data.kind.elemSize := by omega
      rw [← Int.natCast_dvd_natCast, isTotal]
      exact dvd_add (Int.natCast_dvd_natCast.mpr aligned) (dvd_mul_left _ _)
  · obtain ⟨begin, count, within, isPart⟩ := subarray_eq data (not_lt.mp isNegative) first last
    have isLess := Nat.mul_le_mul_right data.kind.elemSize 
      (within.trans (show data.lengthProperty.toInt.toNat ≤ data.length by omega))
    rw [Nat.add_mul] at isLess
    have nonneg : 0 ≤ data.lengthProperty.toInt * data.kind.elemSize :=
      mul_nonneg (not_lt.mp isNegative) (Nat.cast_nonneg _)
    rw [isPart, Nat.mod_eq_of_lt (by omega)]
    refine iff_of_true ⟨dvd_add aligned (Dvd.intro_left _ rfl), bytes, isBuffer, ?_⟩ (by omega)
    dsimp only
    omega

/-- A step that adds no view. -/
theorem inside_of_grows {state : State} (sized : state.Sized) {after : Memory}
    (grows : Grows state.memory after)
    (small : ∀ size ∈ after.map List.length, size < 2 ^ 34) :
    State.Sized { state with memory := after } ∧
      (State.Inside { state with memory := after } ↔ state.Inside ∧ True) := by
  rw [and_true]
  refine ⟨⟨fun view isView => ?_, small⟩, forall₂_congr fun view isView => ?_⟩
  · exact (sized.known view isView).trans_le grows.length_le
  · exact grows.inBounds_iff (sized.known view isView)

/-- A step that only writes. -/
theorem inside_of_sizes {state : State} (sized : state.Sized) {after : Memory}
    (same : after.map List.length = state.memory.map List.length) :
    State.Sized { state with memory := after } ∧
      (State.Inside { state with memory := after } ↔ state.Inside ∧ True) :=
  inside_of_grows sized (.of_sizes same) (same ▸ sized.small)

/-- A step that adds a view which is inside its buffer. -/
theorem inside_of_added {state : State} (sized : state.Sized) {after : Memory}
    (grows : Grows state.memory after)
    (small : ∀ size ∈ after.map List.length, size < 2 ^ 34) {view : TypedArrayData}
    (isKnown : view.buffer < after.length)
    {fits : Prop} (isInside : state.Inside → (InBounds after view ↔ fits)) :
    State.Sized ⟨after, state.views ++ [view]⟩ ∧
      (State.Inside ⟨after, state.views ++ [view]⟩ ↔ state.Inside ∧ fits) := by
  refine ⟨⟨fun other isOther => ?_, small⟩, ?_⟩
  · obtain isOld | isNew := List.mem_append.mp isOther
    · exact (sized.known other isOld).trans_le grows.length_le
    · rw [List.mem_singleton.mp isNew]
      exact isKnown
  · rw [sized.inside_iff grows]
    refine and_congr_right fun inside => ?_
    rw [← isInside inside]
    simp

theorem small_createArraybuffer {state : State} (sized : state.Sized) {byteLen : ℕ}
    (isSmall : byteLen < 2 ^ 34) :
    ∀ size ∈ (createArraybuffer state.memory byteLen).map List.length, size < 2 ^ 34 := by
  intro size isSize
  rw [createArraybuffer, List.map_append, List.mem_append] at isSize
  obtain isOld | isNew := isSize
  · exact sized.small size isOld
  · rw [List.map_singleton, List.length_replicate, List.mem_singleton] at isNew
    rwa [isNew]

/-- A view over a new buffer is inside it. -/
theorem inside_of_new {state : State} (sized : state.Sized) (kind : TypedArrayKind)
    {length : ℕ} (isSmall : length < 2 ^ 31) {after : Memory}
    (same : after.map List.length =
      (createArraybuffer state.memory (length * kind.elemSize)).map List.length) :
    State.Sized ⟨after, state.views ++ [⟨state.memory.length, 0, length, kind⟩]⟩ ∧
      (State.Inside ⟨after, state.views ++ [⟨state.memory.length, 0, length, kind⟩]⟩ ↔
        state.Inside ∧ True) := by
  have isLength : after.length = state.memory.length + 1 := by
    have isMapped := congrArg List.length same
    rwa [List.length_map, List.length_map, createArraybuffer, List.length_append,
      List.length_singleton] at isMapped
  have isBytes : length * kind.elemSize < 2 ^ 34 := by
    have isSize := Nat.mul_le_mul_left length kind.elemSize_le
    omega
  refine inside_of_added sized ((grows_createArraybuffer _ _).trans (.of_sizes same))
    (same ▸ small_createArraybuffer sized isBytes) ?_
    fun _ => iff_of_true (inBounds_new same kind (le_refl _)) trivial
  rw [isLength]
  exact Nat.lt_succ_self _

/-- A view over a given buffer is inside it when it fits. -/
theorem inBounds_buffer_iff (memory : Memory) (kind : TypedArrayKind)
    {buffer : ℕ} {bytes : Bytes} (isBuffer : memory[buffer]? = some bytes)
    (offset : ℕ) (count : Option Int32) :
    InBounds memory ⟨buffer, offset,
        if bytes.length < offset then 0
        else (count.map fun count => count.toInt.toNat).getD
          ((bytes.length - offset) / kind.elemSize), kind⟩ ↔
      kind.elemSize ∣ offset ∧ offset ≤ bytes.length ∧
        ∀ length, count = some length → offset + length.toInt.toNat * kind.elemSize ≤ bytes.length := by
  have isWhole := Nat.div_mul_le_self (bytes.length - offset) kind.elemSize
  constructor
  · rintro ⟨aligned, held, isHeld, fits⟩
    rw [isBuffer] at isHeld
    cases isHeld
    dsimp only at aligned fits
    refine ⟨aligned, by omega, ?_⟩
    rintro length rfl
    rwa [if_neg (by omega)] at fits
  · rintro ⟨aligned, isOffset, fits⟩
    refine ⟨aligned, bytes, isBuffer, ?_⟩
    dsimp only
    rw [if_neg (not_lt.mpr isOffset)]
    cases count with
    | none =>
        rw [Option.map_none, Option.getD_none]
        omega
    | some length => exact fits length rfl

/-- What one step does to the views. -/
theorem inside_step_iff {state : State} (sized : state.Sized) (next : Step) :
    (step state next).Sized ∧ ((step state next).Inside ↔ state.Inside ∧ next.Fits state) := by
  cases next with
  | arrayBuffer length =>
      have isSmall := toNat_toInt_lt length
      exact inside_of_grows sized (grows_createArraybuffer _ _)
        (small_createArraybuffer sized (by omega))
  | build kind args =>
      rw [step]
      cases args with
      | empty => exact inside_of_new sized kind (by decide) (by rw [zero_mul])
      | buffer buffer offset length =>
          rw [buildTypedArrayFromArgs]
          cases isBuffer : state.memory[buffer]? with
          | none =>
              refine ⟨sized, iff_self_and.mpr fun _ bytes isSome => ?_⟩
              rw [isBuffer] at isSome
              cases isSome
          | some bytes =>
              have isKnown := (List.getElem?_eq_some_iff.mp isBuffer).1
              refine inside_of_added sized (.refl _) sized.small isKnown fun _ => ?_
              have isView := inBounds_buffer_iff state.memory kind isBuffer
                (offset.getD 0).toInt.toNat length
              rw [Step.Fits, isBuffer]
              cases length <;> simpa using isView
      | typedArray source =>
          rw [buildTypedArrayFromArgs]
          cases state.views[source]? with
          | none => exact ⟨sized, (and_iff_left trivial).symm⟩
          | some source =>
              exact inside_of_new sized kind (toNat_toInt_lt _) (sizes_copyElements _ _ _ _ _ _)
      | array values =>
          exact inside_of_new sized kind (toNat_toInt_lt _) (sizes_copyElements _ _ _ _ _ _)
      | length length => exact inside_of_new sized kind (toNat_toInt_lt _) rfl
  | subarray view first last =>
      rw [step]
      cases isView : state.views[view]? with
      | none =>
          refine ⟨sized, iff_self_and.mpr fun _ data isSome => ?_⟩
          rw [isView] at isSome
          cases isSome
      | some data =>
          have isMember := List.mem_of_getElem? isView
          have isKnown : (subarray data first last).buffer < state.memory.length :=
            sized.known data isMember
          refine inside_of_added sized (.refl _) sized.small isKnown fun inside => ?_
          rw [inBounds_subarray_iff (inside data isMember) sized.small, Step.Fits, isView]
          simp
  | write view idx n =>
      rw [step]
      cases state.views[view]? with
      | none => exact ⟨sized, (and_iff_left trivial).symm⟩
      | some data => exact inside_of_sizes sized (sizes_setElement _ _ _ _)
  | set view source offset =>
      rw [step]
      cases state.views[view]? with
      | none => exact ⟨sized, (and_iff_left trivial).symm⟩
      | some data =>
          cases state.views[source]? with
          | none => exact ⟨sized, (and_iff_left trivial).symm⟩
          | some source => exact inside_of_sizes sized (sizes_copyElements _ _ _ _ _ _)
  | setArray view values offset =>
      rw [step]
      cases state.views[view]? with
      | none => exact ⟨sized, (and_iff_left trivial).symm⟩
      | some data => exact inside_of_sizes sized (sizes_copyElements _ _ _ _ _ _)

/-- What a run does to the views. -/
theorem inside_run_iff (steps : List Step) {state : State} (sized : state.Sized) :
    (run state steps).Sized ∧ ((run state steps).Inside ↔ state.Inside ∧ AllFit state steps) := by
  induction steps generalizing state with
  | nil => exact ⟨sized, (and_iff_left trivial).symm⟩
  | cons next rest ih =>
      obtain ⟨isSized, isStep⟩ := inside_step_iff sized next
      obtain ⟨restSized, isRest⟩ := ih isSized
      refine ⟨restSized, ?_⟩
      rw [AllFit, ← and_assoc, ← isStep]
      exact isRest

/-! ## Copies -/

/-- Bytes that are already there change nothing. -/
theorem InBounds.setElement_self {memory : Memory} {data : TypedArrayData}
    (inBounds : InBounds memory data) {idx : ℕ}
    (isIndex : idx < data.length) {n : F64}
    (same : loadElement memory data idx = elementBytes data.kind n) :
    setElement memory data idx n = memory := by
  obtain ⟨bytes, isBuffer, inside, isSome⟩ := inBounds.setElement_eq isIndex n
  obtain ⟨isPlace, isHeld⟩ := List.getElem?_eq_some_iff.mp isBuffer
  rw [loadElement, List.getD_eq_getElem?_getD, isBuffer, Option.getD_some] at same
  rw [setElement, isSome, Option.getD_some, ← same, ByteStore.store_load inside, ← isHeld,
    List.set_getElem_self]

/-- Elements that are written one after another. -/
structure Writes (memory : Memory) (data : TypedArrayData) (offset : ℕ) (numbers : ℕ → F64)
    (after : ℕ → Memory) : Prop where
  first : after 0 = memory
  next : ∀ idx, after (idx + 1) = setElement (after idx) data (offset + idx) (numbers idx)

namespace Writes

variable {memory : Memory} {data : TypedArrayData} {offset : ℕ} {numbers : ℕ → F64}
  {after : ℕ → Memory}

theorem sizes (writes : Writes memory data offset numbers after) (count : ℕ) :
    (after count).map List.length = memory.map List.length := by
  induction count with
  | zero => rw [writes.first]
  | succ count ih => rw [writes.next, sizes_setElement, ih]

/-- An element that is not yet written. -/
theorem load_of_le (writes : Writes memory data offset numbers after) {count idx : ℕ}
    (isLater : count ≤ idx) :
    loadElement (after count) data (offset + idx) = loadElement memory data (offset + idx) := by
  induction count with
  | zero => rw [writes.first]
  | succ count ih =>
      have isApart := start_disjoint data (show offset + count < offset + idx by omega)
      rw [writes.next, loadElement_setElement_of_apart _ (.inr (.inr isApart)), ih (by omega)]

/-- An element that is written. -/
theorem load_of_lt (writes : Writes memory data offset numbers after)
    (inBounds : InBounds memory data) {count idx : ℕ} (isWritten : idx < count)
    (isIndex : offset + idx < data.length) :
    loadElement (after count) data (offset + idx) = elementBytes data.kind (numbers idx) := by
  induction count with
  | zero => omega
  | succ count ih =>
      rw [writes.next]
      obtain isLast | isBefore := (Nat.lt_succ_iff.mp isWritten).eq_or_lt
      · subst isLast
        exact (inBounds.congr (writes.sizes idx)).loadElement_setElement isIndex _
      · have isApart := start_disjoint data (show offset + idx < offset + count by omega)
        rw [loadElement_setElement_of_apart _ (.inr (.inl isApart)), ih isBefore]

/-- Elements that are already there change nothing. -/
theorem eq_of_held (writes : Writes memory data offset numbers after)
    (inBounds : InBounds memory data) {first count : ℕ} (isLess : first ≤ count)
    (within : ∀ idx < count, offset + idx < data.length)
    (held : ∀ idx, first ≤ idx → idx < count →
      loadElement memory data (offset + idx) = elementBytes data.kind (numbers idx)) :
    after count = after first := by
  induction isLess with
  | refl => rfl
  | @step count isLess ih =>
      have isLast := held count isLess (Nat.lt_succ_self _)
      rw [← writes.load_of_le (le_refl count)] at isLast
      rw [writes.next, (inBounds.congr (writes.sizes count)).setElement_self
        (within count (Nat.lt_succ_self _)) isLast]
      exact ih (fun idx isIndex => within idx (isIndex.trans (Nat.lt_succ_self _)))
        fun idx isFirst isIndex => held idx isFirst (isIndex.trans (Nat.lt_succ_self _))

end Writes

section Copy

variable (memory : Memory) (data source : TypedArrayData) (offset : ℕ)

/-- The buffers after elements are copied, each read when its turn comes. -/
def copySteps (read : Memory → ℕ → F64) : ℕ → Memory
  | 0 => memory
  | idx + 1 =>
      setElement (copySteps read idx) data (offset + idx) (read (copySteps read idx) idx)

theorem writes_copySteps (read : Memory → ℕ → F64) :
    Writes memory data offset (fun idx => read (copySteps memory data offset read idx) idx)
      (copySteps memory data offset read) :=
  ⟨rfl, fun _ => rfl⟩

/-- The loop copies until the source or the view ends. -/
theorem copyElements_eq (read : Memory → ℕ → F64) (isSmall : offset < 2 ^ 31) (rest idx : ℕ)
    (inRange : idx + rest ≤ 2 ^ 31) (isIndex : idx ≤ data.length - offset) :
    copyElements read data offset (copySteps memory data offset read idx) idx rest =
      copySteps memory data offset read (min (idx + rest) (data.length - offset)) := by
  induction rest generalizing idx with
  | zero => rw [copyElements, Nat.add_zero, Nat.min_eq_left isIndex]
  | succ rest ih =>
      rw [copyElements]
      by_cases within : offset + idx < data.length
      · have isNext := ih (idx + 1) (by omega) (by omega)
        rw [if_pos within, Nat.mod_eq_of_lt (by omega), show idx + (rest + 1) = idx + 1 + rest by omega,
          ← isNext, copySteps]
      · rw [if_neg within]
        congr 1
        omega

theorem writeElements_append (first second : List F64) (idx : ℕ) :
    writeElements data memory idx (first ++ second) =
      writeElements data (writeElements data memory idx first) (idx + first.length) second := by
  induction first generalizing memory idx with
  | nil => rfl
  | cons n rest ih =>
      rw [List.cons_append, writeElements, writeElements, ih, List.length_cons,
        Nat.add_right_comm, Nat.add_assoc]

/-- The buffers after the old elements are written. -/
theorem writes_heldNumbers :
    Writes memory data offset (fun idx => (typedArrayGetElement memory source idx).toNumber)
      (fun count => writeElements data memory offset (heldNumbers memory source count)) := by
  refine ⟨rfl, fun idx => ?_⟩
  have isLength : (heldNumbers memory source idx).length = idx := by
    rw [heldNumbers, List.length_map, List.length_range]
  have isNext : heldNumbers memory source (idx + 1) =
      heldNumbers memory source idx ++ [(typedArrayGetElement memory source idx).toNumber] := by
    rw [heldNumbers, heldNumbers, List.range_succ, List.map_append, List.map_singleton]
  rw [isNext, writeElements_append, isLength, writeElements, writeElements]

variable {memory data source offset}

theorem setElement_congr {idx : ℕ} {n m : F64}
    (same : elementBytes data.kind n = elementBytes data.kind m) :
    setElement memory data idx n = setElement memory data idx m := by
  rw [setElement, setElement, typedArraySetElement, typedArraySetElement, same]

/-- The copies so far are the old elements. -/
theorem copySteps_eq {copied : ℕ} (inRange : copied ≤ 2 ^ 31)
    (reads : ∀ idx < copied, ReadsOld memory data source offset idx ∨
      elementBytes data.kind (readTyped source
        (copySteps memory data offset (readTyped source) idx) idx) =
        elementBytes data.kind (typedArrayGetElement memory source idx).toNumber) :
    copySteps memory data offset (readTyped source) copied =
      writeElements data memory offset (heldNumbers memory source copied) := by
  have old := writes_heldNumbers memory data source offset
  induction copied with
  | zero => rfl
  | succ copied ih =>
      have isBefore := ih (by omega) fun idx isLess => reads idx (by omega)
      have isNext := old.next copied
      rw [isNext, copySteps, isBefore]
      apply setElement_congr
      obtain readsOld | same := reads copied (Nat.lt_succ_self _)
      · rw [readTyped, Nat.mod_eq_of_lt (by omega)]
        exact readsOld
      · rwa [isBefore] at same

/-- A copy leaves the old elements exactly when each of them is still there at its turn. -/
theorem copySteps_eq_iff (inBounds : InBounds memory data) {copied count : ℕ}
    (inRange : copied ≤ 2 ^ 31) (isLess : copied ≤ count)
    (within : ∀ idx < count, offset + idx < data.length) :
    copySteps memory data offset (readTyped source) copied =
        writeElements data memory offset (heldNumbers memory source count) ↔
      ∀ idx < count, if idx < copied then ReadsOld memory data source offset idx
        else loadElement memory data (offset + idx) =
          elementBytes data.kind (typedArrayGetElement memory source idx).toNumber := by
  have old := writes_heldNumbers memory data source offset
  have taken := writes_copySteps memory data offset (readTyped source)
  constructor
  · intro same
    have isElement (idx : ℕ) (isIndex : idx < count) :
        loadElement (copySteps memory data offset (readTyped source) copied) data (offset + idx) =
          elementBytes data.kind (typedArrayGetElement memory source idx).toNumber := by
      rw [same]
      exact old.load_of_lt inBounds isIndex (within idx isIndex)
    have reads (idx : ℕ) (isCopied : idx < copied) :
        elementBytes data.kind (readTyped source
          (copySteps memory data offset (readTyped source) idx) idx) =
          elementBytes data.kind (typedArrayGetElement memory source idx).toNumber := by
      rw [← isElement idx (isCopied.trans_le isLess)]
      exact (taken.load_of_lt inBounds isCopied (within idx (isCopied.trans_le isLess))).symm
    intro idx isIndex
    split
    case isTrue isCopied =>
      have isBefore : copySteps memory data offset (readTyped source) idx =
          writeElements data memory offset (heldNumbers memory source idx) := copySteps_eq (by omega)
        fun other isOther => .inr (reads other (by omega))
      have isRead := reads idx isCopied
      rw [isBefore, readTyped, Nat.mod_eq_of_lt (by omega)] at isRead
      exact isRead
    case isFalse notCopied =>
      rw [← isElement idx isIndex]
      exact (taken.load_of_le (not_lt.mp notCopied)).symm
  · intro reads
    have isCopied : copySteps memory data offset (readTyped source) copied =
        writeElements data memory offset (heldNumbers memory source copied) :=
      copySteps_eq inRange fun idx isIndex => by
      have isRead := reads idx (isIndex.trans_le isLess)
      rw [if_pos isIndex] at isRead
      exact .inl isRead
    rw [isCopied]
    refine (old.eq_of_held inBounds isLess within fun idx notCopied isIndex => ?_).symm
    have isHeld := reads idx isIndex
    rwa [if_neg (not_lt.mpr notCopied)] at isHeld

/-- `set` from a typed array leaves the old elements of the source exactly when each of
them is still there at its turn. -/
theorem typedArraySet_eq_iff (inBounds : InBounds memory data) (first : Int32) :
    typedArraySet memory data source first =
        writeElements data memory first.toInt.toNat
          (heldNumbers memory source (copyCount data source first.toInt.toNat)) ↔
      ∀ idx < copyCount data source first.toInt.toNat,
        CopiesOld memory data source first.toInt.toNat idx := by
  have isFirst := toNat_toInt_lt first
  have isSource := toNat_toInt_lt source.lengthProperty
  have isSeen := source.lengthProperty_range.2
  have isLoop := copyElements_eq memory data first.toInt.toNat (readTyped source) isFirst
    source.lengthProperty.toInt.toNat 0 (by omega) (Nat.zero_le _)
  rw [copySteps, Nat.zero_add] at isLoop
  rw [typedArraySet, isLoop, copySteps_eq_iff inBounds (by omega)
    (by rw [copyCount]; omega) fun idx isIndex => by rw [copyCount] at isIndex; omega]
  refine forall₂_congr fun idx isIndex => ?_
  have isCopied : idx < min source.lengthProperty.toInt.toNat (data.length - first.toInt.toNat) ↔
      idx < source.lengthProperty.toInt.toNat := by
    rw [copyCount] at isIndex
    omega
  rw [CopiesOld, if_congr isCopied rfl rfl]

/-- An element that lies apart from the ones written before it is still there. -/
theorem readsOld_of_apart (isSource : InBounds memory source) {idx : ℕ}
    (isIndex : idx < source.length)
    (apart : source.buffer ≠ data.buffer ∨
      ∀ written < idx, Apart data source offset written idx) :
    ReadsOld memory data source offset idx := by
  have old := writes_heldNumbers memory data source offset
  have isHeld (count : ℕ) (isLess : count ≤ idx) :
      loadElement (writeElements data memory offset (heldNumbers memory source count)) source idx =
        loadElement memory source idx := by
    induction count with
    | zero => rfl
    | succ count ih =>
        rw [old.next count, loadElement_setElement_of_apart, ih (by omega)]
        obtain differ | isApart := apart
        · exact .inl differ
        · exact .inr (isApart count (by omega)).symm
  rw [ReadsOld, (isSource.congr (old.sizes idx)).getElement_eq_load isIndex,
    isSource.getElement_eq_load isIndex, isHeld idx (le_refl _)]

end Copy

/-! ## Every run -/

theorem State.sized_empty : State.Sized .empty := by
  refine ⟨fun view isView => ?_, fun size isSize => ?_⟩
  · cases isView
  · cases isSize

theorem State.inside_empty : State.Inside .empty := fun view isView => by cases isView

theorem elementOfBytes_ne (kind : TypedArrayKind) (bytes : Bytes) :
    elementOfBytes kind bytes ≠ .undefined := by
  cases kind
  case uint32 =>
    rw [elementOfBytes]
    split <;> exact Element.noConfusion
  all_goals exact Element.noConfusion

end TypedArrays
end Script
end MuonJs
