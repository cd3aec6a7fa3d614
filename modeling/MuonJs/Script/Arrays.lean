import MuonJs.Lib.WordBuffers
import MuonJs.Script.Strings

/-!
# Arrays as lists

The elements of an array lie in a buffer of words behind a raw pointer, with a length and a
capacity in the object.  Growing moves the elements to a new buffer, shortening leaves the
buffer as it is.  Every access is checked here against the capacity: no operation makes one
outside, and the operations of all arrays together do what they do on lists.
-/

namespace MuonJs
namespace Script
namespace Arrays

open WordBuffers

/-- The fields of `HeapObject` that an array uses; `elements` is none for null. -/
structure ArrayObject where
  props : List Property
  propCount : ℕ
  arrayLen : UInt32
  arrayCap : UInt32
  elements : Option ℕ

/-- The object that `alloc_object` writes. -/
def ArrayObject.empty : ArrayObject := ⟨[], 0, 0, 0, none⟩

/-- The elements as a buffer of the capacity. -/
def ArrayObject.buffer (obj : ArrayObject) : Option Buffer :=
  obj.elements.map fun start => ⟨start, obj.arrayCap.toNat⟩

/-- The part of `Context` that arrays use: the memory with the values in it, the array
objects by their addresses, and the side maps of properties. -/
structure Heap where
  mem : MemoryRegion
  words : ℕ → JSValue
  arrays : ℕ → Option ArrayObject
  propMaps : ℕ → Option PropMap

/-! ## The code

Each function is none where it makes an access outside the capacity of the buffer. -/

namespace Heap

/-- `Context::new`, before it makes the global object; the memory holds anything. -/
def new (size : ℕ) (words : ℕ → JSValue) : Heap :=
  ⟨⟨size, 0⟩, words, fun _ => none, fun _ => none⟩

/-- `Context::array_get`. -/
def arrayGet (heap : Heap) (obj : ArrayObject) (idx : UInt32) : Option JSValue :=
  if obj.arrayLen ≤ idx then some .undefined
  else
    match obj.buffer with
    | none => some .undefined
    | some buffer => buffer.read heap.words idx.toNat

/-- The capacity that `array_grow` chooses. -/
def grownCap (obj : ArrayObject) (needed : ℕ) : ℕ :=
  max (if obj.arrayCap.toNat = 0 then 4 else obj.arrayCap.toNat * 2) needed

/-- The loop of `array_grow` that copies the elements, if there are any. -/
def copyElements (obj : ArrayObject) (target : Buffer) (words : ℕ → JSValue) :
    Option (ℕ → JSValue) :=
  match obj.buffer with
  | none => some words
  | some source => source.copy target 0 obj.arrayLen.toNat words

/-- `Context::array_grow`. -/
def arrayGrow (heap : Heap) (obj : ArrayObject) (needed : ℕ) :
    Option (Bool × ArrayObject × Heap) :=
  let newCap := grownCap obj needed
  if 2 ^ 64 ≤ newCap * 8 then some (false, obj, heap)
  else
    match heap.mem.alloc (newCap * 8) 8 with
    | none => some (false, obj, heap)
    | some (raw, mem) =>
        let target : Buffer := ⟨raw, newCap⟩
        (target.fill .undefined 0 newCap heap.words).bind fun words =>
          (copyElements obj target words).map fun words =>
            (true, { obj with elements := some raw, arrayCap := UInt32.ofNat newCap },
              { heap with mem := mem, words := words })

/-- Grow if the length needed is above the capacity. -/
def reserve (heap : Heap) (obj : ArrayObject) (needed : ℕ) :
    Option (Bool × ArrayObject × Heap) :=
  if obj.arrayCap.toNat < needed then heap.arrayGrow obj needed else some (true, obj, heap)

/-- `Context::array_set`. -/
def arraySet (heap : Heap) (obj : ArrayObject) (idx : UInt32) (value : JSValue) :
    Option (Bool × ArrayObject × Heap) :=
  let len := obj.arrayLen.toNat
  if len ≤ idx.toNat then
    let newLen := idx.toNat + 1
    (heap.reserve obj newLen).bind fun (reserved, obj, heap) =>
      if ¬reserved then some (false, obj, heap)
      else
        match obj.buffer with
        | none => some (false, obj, heap)
        | some buffer =>
            (buffer.fill .undefined len (idx.toNat - len) heap.words).bind fun words =>
              (buffer.write words idx.toNat value).map fun words =>
                (true, { obj with arrayLen := UInt32.ofNat newLen }, { heap with words := words })
  else
    match obj.buffer with
    | none => some (false, obj, heap)
    | some buffer =>
        (buffer.write heap.words idx.toNat value).map fun words =>
          (true, obj, { heap with words := words })

/-- Overwrite the elements from one index to another, if there is a buffer. -/
def clear (heap : Heap) (obj : ArrayObject) (low high : ℕ) : Option Heap :=
  match obj.buffer with
  | none => some heap
  | some buffer =>
      (buffer.fill .undefined low (high - low) heap.words).map fun words =>
        { heap with words := words }

/-- `Context::array_set_length`. -/
def arraySetLength (heap : Heap) (obj : ArrayObject) (value : JSValue) :
    Option (Bool × ArrayObject × Heap) :=
  match value with
  | .int number =>
      if number < 0 then some (false, obj, heap)
      else
        let newLen := number.toInt.toNat
        let current := obj.arrayLen.toNat
        if current < newLen then
          (heap.reserve obj newLen).bind fun (reserved, obj, heap) =>
            if ¬reserved then some (false, obj, heap)
            else
              (heap.clear obj current newLen).map fun heap =>
                (true, { obj with arrayLen := UInt32.ofNat newLen }, heap)
        else if newLen < current then
          (heap.clear obj newLen current).map fun heap =>
            (true, { obj with arrayLen := UInt32.ofNat newLen }, heap)
        else some (true, { obj with arrayLen := UInt32.ofNat newLen }, heap)
  | _ => some (false, obj, heap)

/-- `Context::array_push`. -/
def arrayPush (heap : Heap) (obj : ArrayObject) (elem : JSValue) :
    Option (Option UInt32 × ArrayObject × Heap) :=
  (heap.arraySet obj obj.arrayLen elem).map fun (stored, obj, heap) =>
    (if stored then some obj.arrayLen else none, obj, heap)

/-- `Context::array_pop`. -/
def arrayPop (heap : Heap) (obj : ArrayObject) : Option (JSValue × ArrayObject × Heap) :=
  let len := obj.arrayLen.toNat
  if len = 0 then some (.undefined, obj, heap)
  else
    let idx := UInt32.ofNat (len - 1)
    (heap.arrayGet obj idx).map fun v => (v, { obj with arrayLen := idx }, heap)

/-- `Context::delete_prop_value`. -/
def deletePropValue (heap : Heap) (address : ℕ) (obj : ArrayObject) (key : PropKey) :
    Bool × ArrayObject × Heap :=
  let heap :=
    match (if propMapThreshold < obj.propCount then heap.propMaps address else none) with
    | none => heap
    | some map =>
        { heap with
          propMaps := Function.update heap.propMaps address
            (some (Function.update map key.mapKey none)) }
  if (obj.props.find? fun prop => prop.key = key).isSome then
    (true, { obj with
      props := obj.props.eraseP fun prop => prop.key = key
      propCount := obj.propCount - 1 }, heap)
  else (false, obj, heap)

/-- `Context::delete_property_index`. -/
def deletePropertyIndex (heap : Heap) (address : ℕ) (obj : ArrayObject) (idx : UInt32) :
    Option (Bool × ArrayObject × Heap) :=
  if idx < obj.arrayLen then
    match obj.buffer with
    | none => some (true, obj, heap)
    | some buffer =>
        (buffer.write heap.words idx.toNat .undefined).map fun words =>
          (true, obj, { heap with words := words })
  else some (heap.deletePropValue address obj ⟨.index, idx⟩)

/-- Write an array object back. -/
def putArray (heap : Heap) (address : ℕ) (obj : ArrayObject) : Heap :=
  { heap with arrays := Function.update heap.arrays address (some obj) }

/-- `Context::alloc_object`, for the class of arrays. -/
def allocObject (heap : Heap) : Option (ℕ × Heap) :=
  (heap.mem.alloc 80 8).map fun (address, mem) =>
    (address, { heap with mem := mem }.putArray address .empty)

/-- `Context::alloc_array`.  Where there is room for the object alone, it remains as an array
without elements. -/
def allocArray (heap : Heap) (initialLen : ℕ) : Option (Option ℕ × Heap) :=
  match heap.allocObject with
  | none => some (none, heap)
  | some (address, heap) =>
      if initialLen = 0 then some (some address, heap)
      else if 2 ^ 64 ≤ initialLen * 8 then some (none, heap)
      else
        match heap.mem.alloc (initialLen * 8) 8 with
        | none => some (none, heap)
        | some (ptr, mem) =>
            let vals : Buffer := ⟨ptr, initialLen⟩
            (vals.fill .undefined 0 initialLen heap.words).map fun words =>
              (some address, { heap with mem := mem, words := words }.putArray address
                { ArrayObject.empty with
                  arrayLen := UInt32.ofNat initialLen
                  arrayCap := UInt32.ofNat initialLen
                  elements := some ptr })

end Heap

/-! ## Operations and runs -/

/-- The operations on one array. -/
inductive Op
  | get (idx : UInt32)
  | set (idx : UInt32) (value : JSValue)
  | setLength (value : JSValue)
  | push (elem : JSValue)
  | pop
  | delete (idx : UInt32)

/-- What a step returns. -/
inductive Answer
  | value (v : JSValue)
  | success (isOk : Bool)
  | length (newLen : Option UInt32)
  | created (address : Option ℕ)
  | nothing
  deriving DecidableEq

/-- An operation on some array, a new array, and what the rest of the program does: it
changes the named properties of an array, and takes memory and writes there. -/
inductive Step
  | op (address : ℕ) (op : Op)
  | newArray (initialLen : ℕ)
  | named (address : ℕ) (props : List Property) (propCount : ℕ) (map : Option PropMap)
  | alloc (size : ℕ) (content : ℕ → JSValue)

namespace Heap

/-- An operation on the array at an address. -/
def exec (heap : Heap) (address : ℕ) (obj : ArrayObject) :
    Op → Option (Answer × ArrayObject × Heap)
  | .get idx => (heap.arrayGet obj idx).map fun v => (.value v, obj, heap)
  | .set idx value =>
      (heap.arraySet obj idx value).map fun (isOk, obj, heap) => (.success isOk, obj, heap)
  | .setLength value =>
      (heap.arraySetLength obj value).map fun (isOk, obj, heap) => (.success isOk, obj, heap)
  | .push elem =>
      (heap.arrayPush obj elem).map fun (newLen, obj, heap) => (.length newLen, obj, heap)
  | .pop => (heap.arrayPop obj).map fun (v, obj, heap) => (.value v, obj, heap)
  | .delete idx =>
      (heap.deletePropertyIndex address obj idx).map fun (isOk, obj, heap) =>
        (.success isOk, obj, heap)

/-- Other properties of an array than its elements; keys that are indices never get there,
since an array stores under an index in its elements. -/
def setNamed (heap : Heap) (address : ℕ) (props : List Property) (propCount : ℕ)
    (map : Option PropMap) : Heap :=
  match heap.arrays address with
  | none => heap
  | some obj =>
      if ∀ prop ∈ props, prop.key.kind = .atom then
        { heap with propMaps := Function.update heap.propMaps address map }.putArray address
          { obj with props := props, propCount := propCount }
      else heap

/-- Memory for something else, which is written at will. -/
def takeMemory (heap : Heap) (size : ℕ) (content : ℕ → JSValue) : Heap :=
  match heap.mem.alloc size 8 with
  | none => heap
  | some (raw, mem) =>
      { heap with
        mem := mem
        words := fun address =>
          if raw ≤ address ∧ address < raw + size then content address else heap.words address }

/-- One step; none where it makes an access outside a buffer. -/
def step (heap : Heap) : Step → Option (Answer × Heap)
  | .op address op =>
      match heap.arrays address with
      | none => some (.nothing, heap)
      | some obj =>
          (heap.exec address obj op).map fun (answer, obj, heap) =>
            (answer, heap.putArray address obj)
  | .newArray initialLen =>
      (heap.allocArray initialLen).map fun (address, heap) => (.created address, heap)
  | .named address props propCount map =>
      some (.nothing, heap.setNamed address props propCount map)
  | .alloc size content => some (.nothing, heap.takeMemory size content)

/-- Steps one after the other, with what they return. -/
def run : List Step → Heap → Option (List Answer × Heap)
  | [], heap => some ([], heap)
  | step :: steps, heap =>
      (heap.step step).bind fun (answer, heap) =>
        (run steps heap).map fun (answers, heap) => (answer :: answers, heap)

end Heap

/-! ## Lists -/

/-- Write at an index; past the end, the gap is filled with undefined. -/
def writeAt (items : List JSValue) (idx : ℕ) (value : JSValue) : List JSValue :=
  if idx < items.length then items.set idx value
  else items ++ List.replicate (idx - items.length) .undefined ++ [value]

/-- Shorten a list, or lengthen it with undefined. -/
def resize (items : List JSValue) (newLen : ℕ) : List JSValue :=
  items.take newLen ++ List.replicate (newLen - items.length) .undefined

namespace Op

/-- What an operation does on a list. -/
def onList (items : List JSValue) : Op → Answer × List JSValue
  | .get idx => (.value (items[idx.toNat]?.getD .undefined), items)
  | .set idx value => (.success true, writeAt items idx.toNat value)
  | .setLength (.int number) =>
      if number < 0 then (.success false, items)
      else (.success true, resize items number.toInt.toNat)
  | .setLength _ => (.success false, items)
  | .push elem => (.length (some (UInt32.ofNat (items.length + 1))), items ++ [elem])
  | .pop => (.value (items.getLast?.getD .undefined), items.dropLast)
  | .delete idx =>
      if idx.toNat < items.length then (.success true, items.set idx.toNat .undefined)
      else (.success false, items)

/-- The length that an operation needs room for. -/
def needed (len : ℕ) : Op → ℕ
  | .set idx _ => idx.toNat + 1
  | .setLength (.int number) => number.toInt.toNat
  | .push _ => len + 1
  | _ => 0

/-- What an operation returns that finds no memory. -/
def failure : Op → Answer
  | .push _ => .length none
  | _ => .success false

end Op

/-- A list for every array. -/
abbrev Lists := ℕ → Option (List JSValue)

/-- A step on lists.  An operation that lengthens a list can fail, and then changes nothing;
so can a new array, which may remain as an empty one that nothing refers to. -/
inductive ListStep (lists : Lists) : Step → Answer → Lists → Prop
  | done {address : ℕ} {items : List JSValue} (op : Op) (isArray : lists address = some items) :
      ListStep lists (.op address op) (op.onList items).1
        (Function.update lists address (some (op.onList items).2))
  | failed {address : ℕ} {items : List JSValue} {op : Op} (isArray : lists address = some items)
      (lengthens : items.length < op.needed items.length) :
      ListStep lists (.op address op) op.failure lists
  | absent {address : ℕ} {op : Op} (notArray : lists address = none) :
      ListStep lists (.op address op) .nothing lists
  | created {address : ℕ} (initialLen : ℕ) (isNew : lists address = none) :
      ListStep lists (.newArray initialLen) (.created (some address))
        (Function.update lists address (some (List.replicate initialLen .undefined)))
  | orphaned {address initialLen : ℕ} (isNew : lists address = none) :
      ListStep lists (.newArray initialLen) (.created none)
        (Function.update lists address (some []))
  | full {initialLen : ℕ} : ListStep lists (.newArray initialLen) (.created none) lists
  | named {address : ℕ} {props : List Property} {propCount : ℕ} {map : Option PropMap} :
      ListStep lists (.named address props propCount map) .nothing lists
  | alloc {size : ℕ} {content : ℕ → JSValue} :
      ListStep lists (.alloc size content) .nothing lists

/-- Steps on lists, one after the other. -/
inductive ListRun : Lists → List Step → List Answer → Lists → Prop
  | nil {lists : Lists} : ListRun lists [] [] lists
  | cons {lists next last : Lists} {step : Step} {steps : List Step} {answer : Answer}
      {answers : List Answer} (first : ListStep lists step answer next)
      (rest : ListRun next steps answers last) :
      ListRun lists (step :: steps) (answer :: answers) last

/-! ## The invariant -/

/-- The elements as a list. -/
def ArrayObject.items (obj : ArrayObject) (words : ℕ → JSValue) : List JSValue :=
  match obj.buffer with
  | none => []
  | some buffer => buffer.contents words obj.arrayLen.toNat

/-- The length is at most the capacity, elements are null at most where the capacity is zero,
the buffer lies in the memory in use, and no property has an index as its key. -/
structure ArrayObject.WellFormed (obj : ArrayObject) (offset : ℕ) : Prop where
  len_le : obj.arrayLen.toNat ≤ obj.arrayCap.toNat
  nonNull : obj.elements = none → obj.arrayCap.toNat = 0
  inUse : ∀ buffer, obj.buffer = some buffer → buffer.start + 8 * buffer.cap ≤ offset
  named : ∀ prop ∈ obj.props, prop.key.kind = .atom

namespace Heap

/-- Less than `2 ^ 32` words of memory, all arrays in order, and their buffers apart. -/
structure WellFormed (heap : Heap) : Prop where
  small : heap.mem.size < 2 ^ 32 * 8
  inMemory : heap.mem.offset ≤ heap.mem.size
  inUse : ∀ address obj, heap.arrays address = some obj → address < heap.mem.offset
  arrays : ∀ address obj, heap.arrays address = some obj → obj.WellFormed heap.mem.offset
  apart : ∀ left right obj other buffer buffer', left ≠ right →
    heap.arrays left = some obj → heap.arrays right = some other →
    obj.buffer = some buffer → other.buffer = some buffer' → buffer.block.Apart buffer'.block

/-- The lists of all arrays. -/
def contents (heap : Heap) : Lists :=
  fun address => (heap.arrays address).map fun obj => obj.items heap.words

/-- There is room for a length in the buffer of an array, or memory for a larger one. -/
def HasRoom (heap : Heap) (obj : ArrayObject) (needed : ℕ) : Prop :=
  needed ≤ obj.arrayCap.toNat ∨ (heap.mem.alloc (grownCap obj needed * 8) 8).isSome

end Heap

namespace ArrayObject

variable {obj : ArrayObject} {offset : ℕ} {words : ℕ → JSValue} {buffer : Buffer}

theorem items_eq (isBuffer : obj.buffer = some buffer) :
    obj.items words = buffer.contents words obj.arrayLen.toNat := by
  rw [items, isBuffer]

theorem items_resized (isBuffer : obj.buffer = some buffer) (newLen : UInt32) :
    ({ obj with arrayLen := newLen } : ArrayObject).items words =
      buffer.contents words newLen.toNat :=
  items_eq (show ({ obj with arrayLen := newLen } : ArrayObject).buffer = _ from isBuffer)

/-- A buffer whose capacity fits into the object. -/
theorem buffer_fresh (obj : ArrayObject) (newLen : UInt32) (raw : ℕ) {cap : ℕ}
    (cap_lt : cap < 2 ^ 32) :
    ({ obj with arrayLen := newLen, arrayCap := UInt32.ofNat cap, elements := some raw } :
      ArrayObject).buffer = some ⟨raw, cap⟩ := by
  rw [ArrayObject.buffer, UInt32.toNat_ofNat_of_lt' cap_lt]
  rfl

theorem cap_eq (isBuffer : obj.buffer = some buffer) : buffer.cap = obj.arrayCap.toNat := by
  obtain ⟨start, -, rfl⟩ := Option.map_eq_some_iff.mp isBuffer
  rfl

/-- Where there is a capacity, there is a buffer. -/
theorem WellFormed.exists_buffer (wellFormed : obj.WellFormed offset)
    (hasCap : 0 < obj.arrayCap.toNat) : ∃ buffer, obj.buffer = some buffer := by
  cases isNull : obj.elements with
  | none => exact absurd (wellFormed.nonNull isNull) hasCap.ne'
  | some start =>
      rw [ArrayObject.buffer, isNull]
      exact ⟨⟨start, obj.arrayCap.toNat⟩, rfl⟩

/-- Elements are not null where the length is above zero. -/
theorem WellFormed.exists_buffer_of_lt (wellFormed : obj.WellFormed offset) {index : ℕ}
    (inRange : index < obj.arrayLen.toNat) : ∃ buffer, obj.buffer = some buffer :=
  wellFormed.exists_buffer ((Nat.zero_lt_of_lt inRange).trans_le wellFormed.len_le)

/-- What is in the range of the length is in the buffer. -/
theorem WellFormed.lt_cap (wellFormed : obj.WellFormed offset) {buffer : Buffer}
    (isBuffer : obj.buffer = some buffer) {index : ℕ} (inRange : index < obj.arrayLen.toNat) :
    index < buffer.cap :=
  (inRange.trans_le wellFormed.len_le).trans_eq (cap_eq isBuffer).symm

theorem WellFormed.length_items (wellFormed : obj.WellFormed offset) :
    (obj.items words).length = obj.arrayLen.toNat := by
  cases isBuffer : obj.buffer with
  | none =>
      have isEmpty : ¬0 < obj.arrayLen.toNat := fun inRange => by
        obtain ⟨buffer, isSome⟩ := wellFormed.exists_buffer_of_lt inRange
        rw [isBuffer] at isSome
        cases isSome
      rw [items, isBuffer, List.length_nil]
      omega
  | some buffer => rw [items_eq isBuffer, Buffer.length_contents]

theorem WellFormed.setLen (wellFormed : obj.WellFormed offset) {newLen : UInt32}
    (newLen_le : newLen.toNat ≤ obj.arrayCap.toNat) :
    ({ obj with arrayLen := newLen } : ArrayObject).WellFormed offset :=
  ⟨newLen_le, wellFormed.nonNull, wellFormed.inUse, wellFormed.named⟩

theorem WellFormed.mono (wellFormed : obj.WellFormed offset) {later : ℕ}
    (grows : offset ≤ later) : obj.WellFormed later where
  len_le := wellFormed.len_le
  nonNull := wellFormed.nonNull
  inUse := fun buffer isBuffer => (wellFormed.inUse buffer isBuffer).trans grows
  named := wellFormed.named

end ArrayObject

/-! ## What an operation leaves alone -/

theorem alloc_spec {mem after : MemoryRegion} {size address : ℕ}
    (allocated : mem.alloc size 8 = some (address, after)) :
    mem.offset ≤ address ∧ after.offset = address + size ∧ after.size = mem.size ∧
      after.offset ≤ after.size := by
  have ⟨isBehind, isOffset⟩ := Context.alloc_eq_some allocated
  refine ⟨isBehind, isOffset, ?_⟩
  unfold MemoryRegion.alloc at allocated
  dsimp only at allocated
  split at allocated
  · cases allocated
  · rename_i fits
    cases allocated
    exact ⟨rfl, Nat.le_of_not_lt fits⟩

/-- A change of one array: memory is taken at most behind what is in use, and in that part
only the buffer of the array is written. -/
structure Change (heap after : Heap) (obj changed : ArrayObject) : Prop where
  size : after.mem.size = heap.mem.size
  grows : heap.mem.offset ≤ after.mem.offset
  inMemory : after.mem.offset ≤ after.mem.size
  arrays : after.arrays = heap.arrays
  words : ∀ address < heap.mem.offset,
    (∀ buffer, obj.buffer = some buffer →
      address < buffer.start ∨ buffer.start + 8 * buffer.cap ≤ address) →
    after.words address = heap.words address
  buffer : changed.buffer = obj.buffer ∨
    ∃ buffer, changed.buffer = some buffer ∧ heap.mem.offset ≤ buffer.start
  wellFormed : changed.WellFormed after.mem.offset

namespace Change

variable {heap next after : Heap} {obj changed last : ArrayObject}

theorem trans (first : Change heap next obj changed) (second : Change next after changed last) :
    Change heap after obj last where
  size := second.size.trans first.size
  grows := first.grows.trans second.grows
  inMemory := second.inMemory
  arrays := second.arrays.trans first.arrays
  words := by
    intro address inUse isElsewhere
    rw [second.words address (inUse.trans_le first.grows), first.words address inUse isElsewhere]
    intro buffer isBuffer
    rcases first.buffer with same | ⟨fresh, isFresh, isBehind⟩
    · exact isElsewhere buffer (same.symm.trans isBuffer)
    · rw [isFresh, Option.some.injEq] at isBuffer
      rw [← isBuffer]
      exact .inl (inUse.trans_le isBehind)
  buffer := by
    rcases second.buffer with same | ⟨fresh, isFresh, isBehind⟩
    · rw [same]
      exact first.buffer
    · exact .inr ⟨fresh, isFresh, first.grows.trans isBehind⟩
  wellFormed := second.wellFormed

/-- A change of the object alone, which keeps the buffer. -/
theorem ofObject (inMemory : heap.mem.offset ≤ heap.mem.size)
    (sameBuffer : changed.buffer = obj.buffer) (wellFormed : changed.WellFormed heap.mem.offset)
    (propMaps : ℕ → Option PropMap) :
    Change heap { heap with propMaps := propMaps } obj changed where
  size := rfl
  grows := Nat.le_refl _
  inMemory := inMemory
  arrays := rfl
  words := fun _ _ _ => rfl
  buffer := .inl sameBuffer
  wellFormed := wellFormed

/-- A write into the buffer, with a new length. -/
theorem ofWrote (inMemory : heap.mem.offset ≤ heap.mem.size)
    (wellFormed : obj.WellFormed heap.mem.offset) {buffer : Buffer}
    (isBuffer : obj.buffer = some buffer) {low count : ℕ} {values words : ℕ → JSValue}
    (wrote : Buffer.Wrote buffer low count values heap.words words)
    (inBuffer : low + count ≤ buffer.cap) {newLen : UInt32}
    (newLen_le : newLen.toNat ≤ obj.arrayCap.toNat) :
    Change heap { heap with words := words } obj { obj with arrayLen := newLen } where
  size := rfl
  grows := Nat.le_refl _
  inMemory := inMemory
  arrays := rfl
  words := fun _ _ isElsewhere => wrote.eq_of_outside inBuffer (isElsewhere buffer isBuffer)
  buffer := .inl rfl
  wellFormed := wellFormed.setLen newLen_le

/-- A new buffer in memory that was not in use. -/
theorem ofFresh (small : heap.mem.size < 2 ^ 32 * 8) (wellFormed : obj.WellFormed heap.mem.offset)
    {raw cap : ℕ} {mem : MemoryRegion} (isAlloc : heap.mem.alloc (cap * 8) 8 = some (raw, mem))
    {words : ℕ → JSValue}
    (sameBelow : ∀ address < heap.mem.offset, words address = heap.words address)
    {newLen : UInt32} (newLen_le : newLen.toNat ≤ cap) :
    Change heap { heap with mem := mem, words := words } obj
      { obj with arrayLen := newLen, arrayCap := UInt32.ofNat cap, elements := some raw } := by
  obtain ⟨isBehind, isOffset, sameSize, inMemory⟩ := alloc_spec isAlloc
  have cap_lt : cap < 2 ^ 32 := by omega
  have isBuffer := obj.buffer_fresh newLen raw cap_lt
  exact {
    size := sameSize
    grows := by dsimp only; omega
    inMemory := inMemory
    arrays := rfl
    words := fun address isBelow _ => sameBelow address isBelow
    buffer := .inr ⟨_, isBuffer, isBehind⟩
    wellFormed := {
      len_le := newLen_le.trans_eq (UInt32.toNat_ofNat_of_lt' cap_lt).symm
      nonNull := nofun
      inUse := by
        intro buffer isSome
        rw [isBuffer, Option.some.injEq] at isSome
        rw [← isSome]
        dsimp only
        omega
      named := wellFormed.named } }

/-- A new length alone. -/
theorem ofLen (inMemory : heap.mem.offset ≤ heap.mem.size)
    (wellFormed : obj.WellFormed heap.mem.offset) {newLen : UInt32}
    (newLen_le : newLen.toNat ≤ obj.arrayCap.toNat) :
    Change heap heap obj { obj with arrayLen := newLen } := by
  have sameBuffer : ({ obj with arrayLen := newLen } : ArrayObject).buffer = obj.buffer := rfl
  exact ofObject inMemory sameBuffer (wellFormed.setLen newLen_le) heap.propMaps

end Change

/-! ## Growing -/

namespace Heap

variable {heap : Heap} {obj : ArrayObject}

theorem needed_le_grownCap (obj : ArrayObject) (needed : ℕ) : needed ≤ grownCap obj needed :=
  le_max_right _ _

theorem arrayCap_le_grownCap (obj : ArrayObject) (needed : ℕ) :
    obj.arrayCap.toNat ≤ grownCap obj needed := by
  refine le_trans ?_ (le_max_left _ _)
  split <;> omega

theorem grownCap_lt (obj : ArrayObject) {needed : ℕ} (needed_le : needed ≤ 2 ^ 32) :
    grownCap obj needed * 8 < 2 ^ 64 := by
  have below := obj.arrayCap.toNat_lt
  have bounded : grownCap obj needed ≤ 2 ^ 33 := by
    refine max_le ?_ (by omega)
    split <;> omega
  omega

/-- Elements are copied as they are to a larger buffer behind the memory in use. -/
theorem copyElements_spec {offset : ℕ} (wellFormed : obj.WellFormed offset) (target : Buffer)
    (isBehind : offset ≤ target.start) (cap_le : obj.arrayCap.toNat ≤ target.cap)
    (words : ℕ → JSValue) :
    ∃ after, copyElements obj target words = some after ∧
      (∀ address < offset, after address = words address) ∧
      target.contents after obj.arrayLen.toNat = obj.items words ∧
      ∀ index, obj.arrayLen.toNat ≤ index →
        after (target.place index) = words (target.place index) := by
  have len_le := wellFormed.len_le
  rw [copyElements]
  cases isBuffer : obj.buffer with
  | none =>
      refine ⟨words, rfl, fun _ _ => rfl, ?_, fun _ _ => rfl⟩
      have noItems : (obj.items words).length = obj.arrayLen.toNat := wellFormed.length_items
      rw [ArrayObject.items, isBuffer] at noItems ⊢
      rw [← noItems]
      rfl
  | some source =>
      have inUse := wellFormed.inUse source isBuffer
      have sourceCap := ArrayObject.cap_eq isBuffer
      have inTarget : 0 + obj.arrayLen.toNat ≤ target.cap := by omega
      obtain ⟨after, isCopied, wrote⟩ := Buffer.copy_eq_some (.inl (inUse.trans isBehind))
        (by omega) inTarget words
      refine ⟨after, isCopied, fun address isBelow =>
        wrote.eq_of_outside inTarget (.inl (isBelow.trans_le isBehind)), ?_, ?_⟩
      · rw [ArrayObject.items_eq isBuffer]
        exact Buffer.contents_congr fun index inRange =>
          wrote.inside index (Nat.zero_le index) (by omega)
      · intro index isLater
        refine wrote.outside _ fun other _ isBelow same => ?_
        rw [Buffer.place_inj] at same
        omega

/-- What is below an offset determines the items of an array whose buffer lies below. -/
theorem items_congr {offset : ℕ} (wellFormed : obj.WellFormed offset)
    {words after : ℕ → JSValue} (same : ∀ address < offset, after address = words address) :
    obj.items after = obj.items words := by
  cases isBuffer : obj.buffer with
  | none => rw [ArrayObject.items, ArrayObject.items, isBuffer]
  | some buffer =>
      have inUse := wellFormed.inUse buffer isBuffer
      have sameCap := ArrayObject.cap_eq isBuffer
      have len_le := wellFormed.len_le
      rw [ArrayObject.items_eq isBuffer, ArrayObject.items_eq isBuffer]
      refine Buffer.contents_congr fun index inRange => same _ ?_
      unfold Buffer.place
      omega

/-- Growing fails for want of memory alone, and otherwise moves the elements to a buffer
behind all memory in use, with undefined behind them. -/
theorem arrayGrow_eq (wellFormed : obj.WellFormed heap.mem.offset) {needed : ℕ}
    (needed_le : needed ≤ 2 ^ 32) :
    (heap.mem.alloc (grownCap obj needed * 8) 8 = none ∧
      heap.arrayGrow obj needed = some (false, obj, heap)) ∨
    ∃ raw mem words, heap.mem.alloc (grownCap obj needed * 8) 8 = some (raw, mem) ∧
      heap.arrayGrow obj needed =
        some (true,
          { obj with elements := some raw, arrayCap := UInt32.ofNat (grownCap obj needed) },
          { heap with mem := mem, words := words }) ∧
      (∀ address < heap.mem.offset, words address = heap.words address) ∧
      (⟨raw, grownCap obj needed⟩ : Buffer).contents words (grownCap obj needed) =
        obj.items heap.words ++
          List.replicate (grownCap obj needed - obj.arrayLen.toNat) .undefined := by
  have noOverflow := Nat.not_le_of_lt (grownCap_lt obj needed_le)
  have cap_le := arrayCap_le_grownCap obj needed
  have len_le := wellFormed.len_le
  rw [arrayGrow]
  simp only [if_neg noOverflow]
  generalize grownCap obj needed = newCap at cap_le ⊢
  cases isAlloc : heap.mem.alloc (newCap * 8) 8 with
  | none => exact .inl ⟨rfl, rfl⟩
  | some taken =>
      obtain ⟨raw, mem⟩ := taken
      obtain ⟨isBehind, -, -, -⟩ := alloc_spec isAlloc
      obtain ⟨filled, isFilled, wrote⟩ := Buffer.fill_eq_some
        (show 0 + newCap ≤ (⟨raw, newCap⟩ : Buffer).cap by rw [Nat.zero_add])
        JSValue.undefined heap.words
      have sameBelow : ∀ address < heap.mem.offset, filled address = heap.words address :=
        fun address isBelow => wrote.eq_of_outside (by rw [Nat.zero_add])
          (.inl (isBelow.trans_le isBehind))
      obtain ⟨words, isCopied, copiedBelow, sameItems, sameBehind⟩ :=
        copyElements_spec wellFormed ⟨raw, newCap⟩ isBehind cap_le filled
      refine .inr ⟨raw, mem, words, rfl, ?_, fun address isBelow =>
        (copiedBelow address isBelow).trans (sameBelow address isBelow), ?_⟩
      · simp only [isFilled, Option.bind_some, isCopied, Option.map_some]
      · obtain ⟨rest, isRest⟩ := Nat.exists_eq_add_of_le (len_le.trans cap_le)
        have isGap : newCap - obj.arrayLen.toNat = rest := by omega
        refine (congrArg (Buffer.contents ⟨raw, newCap⟩ words) isRest).trans ?_
        rw [Buffer.contents_add, sameItems, items_congr wellFormed sameBelow, isGap,
          List.append_cancel_left_eq, List.eq_replicate_iff, List.length_map, List.length_range]
        refine ⟨rfl, fun word isWord => ?_⟩
        obtain ⟨index, inRange, rfl⟩ := List.mem_map.mp isWord
        have isBelow := List.mem_range.mp inRange
        rw [sameBehind _ (Nat.le_add_right _ _)]
        exact wrote.inside _ (Nat.zero_le _) (by omega)

/-- What growing leaves of the other words and of the list. -/
theorem arrayGrow_spec (small : heap.mem.size < 2 ^ 32 * 8)
    (wellFormed : obj.WellFormed heap.mem.offset) {needed : ℕ} (needed_le : needed ≤ 2 ^ 32) :
    (heap.mem.alloc (grownCap obj needed * 8) 8 = none ∧
      heap.arrayGrow obj needed = some (false, obj, heap)) ∨
    ∃ changed after, heap.arrayGrow obj needed = some (true, changed, after) ∧
      Change heap after obj changed ∧ changed.items after.words = obj.items heap.words ∧
      changed.arrayLen = obj.arrayLen ∧ needed ≤ changed.arrayCap.toNat := by
  have len_le := wellFormed.len_le.trans (arrayCap_le_grownCap obj needed)
  rcases arrayGrow_eq wellFormed needed_le with
    failed | ⟨raw, mem, words, isAlloc, grown, sameBelow, isContents⟩
  · exact .inl failed
  · obtain ⟨-, isOffset, sameSize, inMemory⟩ := alloc_spec isAlloc
    have cap_lt : grownCap obj needed < 2 ^ 32 := by omega
    refine .inr ⟨_, _, grown, Change.ofFresh small wellFormed isAlloc sameBelow len_le, ?_, rfl,
      (needed_le_grownCap obj needed).trans_eq (UInt32.toNat_ofNat_of_lt' cap_lt).symm⟩
    rw [ArrayObject.items_eq (obj.buffer_fresh obj.arrayLen raw cap_lt),
      ← Buffer.take_contents len_le, isContents, List.take_left' wellFormed.length_items]

/-- Where there is room for the length, reserving makes it available. -/
theorem reserve_spec (small : heap.mem.size < 2 ^ 32 * 8)
    (inMemory : heap.mem.offset ≤ heap.mem.size) (wellFormed : obj.WellFormed heap.mem.offset)
    {needed : ℕ} (needed_le : needed ≤ 2 ^ 32) :
    (¬heap.HasRoom obj needed ∧ heap.reserve obj needed = some (false, obj, heap)) ∨
    ∃ changed after, heap.reserve obj needed = some (true, changed, after) ∧
      Change heap after obj changed ∧ changed.items after.words = obj.items heap.words ∧
      changed.arrayLen = obj.arrayLen ∧ needed ≤ changed.arrayCap.toNat := by
  rw [reserve, HasRoom]
  by_cases isFull : obj.arrayCap.toNat < needed
  · rw [if_pos isFull]
    rcases arrayGrow_spec small wellFormed needed_le with ⟨noMemory, failed⟩ | grown
    · refine .inl ⟨?_, failed⟩
      rw [noMemory, not_or]
      exact ⟨Nat.not_le_of_lt isFull, Bool.false_ne_true⟩
    · exact .inr grown
  · rw [if_neg isFull]
    exact .inr ⟨obj, heap, rfl, Change.ofObject inMemory rfl wellFormed heap.propMaps, rfl, rfl,
      Nat.le_of_not_lt isFull⟩

/-! ## One operation -/

/-- A call makes no access outside its buffers, returns the answer, and leaves the list in
the array. -/
def Yields {β : Type} (heap : Heap) (obj : ArrayObject)
    (result : Option (β × ArrayObject × Heap)) (answer : β) (items : List JSValue) : Prop :=
  ∃ changed after, result = some (answer, changed, after) ∧ Change heap after obj changed ∧
    changed.items after.words = items

theorem Yields.map {β γ : Type} {result : Option (β × ArrayObject × Heap)} {answer : β}
    {items : List JSValue} (yields : heap.Yields obj result answer items) (f : β → γ) :
    heap.Yields obj (result.map fun (answer, obj, heap) => (f answer, obj, heap)) (f answer)
      items := by
  obtain ⟨changed, after, rfl, change, isItems⟩ := yields
  exact ⟨changed, after, rfl, change, isItems⟩

/-- A key without a property is at most removed from the side map. -/
theorem deletePropValue_eq (heap : Heap) (address : ℕ) {key : PropKey}
    (notFound : (obj.props.find? fun prop => prop.key = key) = none) :
    ∃ propMaps,
      heap.deletePropValue address obj key = (false, obj, { heap with propMaps := propMaps }) := by
  simp only [deletePropValue, notFound, Option.isSome_none, Bool.false_eq_true, if_false]
  split
  · exact ⟨heap.propMaps, rfl⟩
  · exact ⟨_, rfl⟩

section Operations

variable (small : heap.mem.size < 2 ^ 32 * 8) (inMemory : heap.mem.offset ≤ heap.mem.size)
  (wellFormed : obj.WellFormed heap.mem.offset)

include wellFormed in
theorem arrayGet_eq (idx : UInt32) :
    heap.arrayGet obj idx = some ((obj.items heap.words)[idx.toNat]?.getD .undefined) := by
  have isLength : (obj.items heap.words).length = obj.arrayLen.toNat := wellFormed.length_items
  rw [arrayGet]
  by_cases isPast : obj.arrayLen ≤ idx
  · have isOutside := isLength.trans_le (UInt32.le_iff_toNat_le.mp isPast)
    rw [if_pos isPast, List.getElem?_eq_none isOutside, Option.getD_none]
  · have inRange : idx.toNat < obj.arrayLen.toNat :=
      Nat.lt_of_not_le fun isLe => isPast (UInt32.le_iff_toNat_le.mpr isLe)
    obtain ⟨buffer, isBuffer⟩ := wellFormed.exists_buffer_of_lt inRange
    have inBuffer := wellFormed.lt_cap isBuffer inRange
    rw [if_neg isPast, ArrayObject.items_eq isBuffer, Buffer.getElem?_contents inRange, isBuffer]
    exact if_pos inBuffer

include inMemory wellFormed in
/-- A write to an element. -/
theorem yields_write {buffer : Buffer} (isBuffer : obj.buffer = some buffer) {idx : ℕ}
    (inRange : idx < obj.arrayLen.toNat) (value : JSValue) :
    heap.Yields obj ((buffer.write heap.words idx value).map fun words =>
      (true, obj, { heap with words := words })) true ((obj.items heap.words).set idx value) := by
  have inBuffer := wellFormed.lt_cap isBuffer inRange
  obtain ⟨words, written, wrote⟩ := Buffer.write_eq_some inBuffer heap.words value
  refine ⟨obj, { heap with words := words }, ?_, ?_, ?_⟩
  · rw [written, Option.map_some]
  · exact Change.ofWrote inMemory wellFormed isBuffer wrote inBuffer wellFormed.len_le
  · rw [ArrayObject.items_eq isBuffer, ArrayObject.items_eq isBuffer, wrote.contents_set]

include small inMemory wellFormed in
/-- `array_set` fails for want of memory alone, and otherwise writes to the list. -/
theorem arraySet_spec (idx : UInt32) (value : JSValue) :
    (¬heap.HasRoom obj (idx.toNat + 1) ∧
      heap.arraySet obj idx value = some (false, obj, heap)) ∨
    heap.Yields obj (heap.arraySet obj idx value) true
      (writeAt (obj.items heap.words) idx.toNat value) := by
  have isLength : (obj.items heap.words).length = obj.arrayLen.toNat := wellFormed.length_items
  have idx_lt := idx.toNat_lt
  rw [arraySet, writeAt, isLength]
  by_cases isPast : obj.arrayLen.toNat ≤ idx.toNat
  · simp only [if_pos isPast, if_neg (Nat.not_lt_of_le isPast)]
    rcases reserve_spec small inMemory wellFormed (show idx.toNat + 1 ≤ 2 ^ 32 from idx_lt) with
      ⟨noRoom, failed⟩ | ⟨grown, next, reserved, change, sameItems, sameLen, needed_le⟩
    · refine .inl ⟨noRoom, ?_⟩
      rw [failed]
      rfl
    · have hasCap := Nat.zero_lt_of_lt needed_le
      obtain ⟨buffer, isBuffer⟩ := change.wellFormed.exists_buffer hasCap
      have sameCap := ArrayObject.cap_eq isBuffer
      have inFill : obj.arrayLen.toNat + (idx.toNat - obj.arrayLen.toNat) ≤ buffer.cap := by
        omega
      have inWrite : idx.toNat < buffer.cap := by omega
      obtain ⟨filled, isFilled, wroteFill⟩ :=
        Buffer.fill_eq_some inFill JSValue.undefined next.words
      obtain ⟨words, written, wrote⟩ := Buffer.write_eq_some inWrite filled value
      have isNewLen : (UInt32.ofNat (idx.toNat + 1)).toNat = idx.toNat + 1 :=
        UInt32.toNat_ofNat_of_lt' (lt_of_le_of_lt needed_le grown.arrayCap.toNat_lt)
      refine .inr ⟨{ grown with arrayLen := UInt32.ofNat (idx.toNat + 1) },
        { next with words := words }, ?_, ?_, ?_⟩
      · simp only [reserved, Option.bind_some, isBuffer, isFilled, written, Option.map_some,
          not_true, if_false]
      · have filling := Change.ofWrote change.inMemory change.wellFormed isBuffer wroteFill inFill
          change.wellFormed.len_le
        have writing := Change.ofWrote filling.inMemory filling.wellFormed isBuffer wrote inWrite
          (isNewLen.trans_le needed_le)
        exact change.trans (filling.trans writing)
      · have isGrown : buffer.contents next.words obj.arrayLen.toNat = obj.items heap.words := by
          rw [← sameItems, ArrayObject.items_eq isBuffer, sameLen]
        have isItems := wrote.contents_append
        rw [← Nat.add_sub_of_le isPast, wroteFill.contents_append, isGrown,
          Nat.add_sub_of_le isPast] at isItems
        rw [ArrayObject.items_resized isBuffer, isNewLen, isItems]
        rfl
  · obtain ⟨buffer, isBuffer⟩ := wellFormed.exists_buffer_of_lt (Nat.lt_of_not_le isPast)
    simp only [if_neg isPast, if_pos (Nat.lt_of_not_le isPast), isBuffer]
    exact .inr (yields_write inMemory wellFormed isBuffer (Nat.lt_of_not_le isPast) value)

include small inMemory wellFormed in
/-- `array_push` appends to the list, and returns the length that it has then. -/
theorem arrayPush_spec (elem : JSValue) :
    (¬heap.HasRoom obj (obj.arrayLen.toNat + 1) ∧
      heap.arrayPush obj elem = some (none, obj, heap)) ∨
    heap.Yields obj (heap.arrayPush obj elem)
      (some (UInt32.ofNat ((obj.items heap.words).length + 1)))
      (obj.items heap.words ++ [elem]) := by
  have isLength : (obj.items heap.words).length = obj.arrayLen.toNat := wellFormed.length_items
  rw [arrayPush]
  rcases arraySet_spec small inMemory wellFormed obj.arrayLen elem with
    ⟨noRoom, failed⟩ | ⟨changed, after, stored, change, isItems⟩
  · refine .inl ⟨noRoom, ?_⟩
    rw [failed]
    rfl
  · rw [writeAt, isLength, if_neg (lt_irrefl _), Nat.sub_self, List.replicate_zero,
      List.append_nil] at isItems
    have newLength : changed.arrayLen.toNat = (obj.items heap.words).length + 1 := by
      rw [← change.wellFormed.length_items, isItems, List.length_append, List.length_singleton]
    refine .inr ⟨changed, after, ?_, change, isItems⟩
    rw [stored, ← newLength, UInt32.ofNat_toNat]
    rfl

include inMemory wellFormed in
/-- `array_pop` removes the last element, and returns it. -/
theorem arrayPop_spec :
    heap.Yields obj (heap.arrayPop obj) ((obj.items heap.words).getLast?.getD .undefined)
      (obj.items heap.words).dropLast := by
  have isLength : (obj.items heap.words).length = obj.arrayLen.toNat := wellFormed.length_items
  rw [arrayPop]
  by_cases isEmpty : obj.arrayLen.toNat = 0
  · have noItems := List.length_eq_zero_iff.mp (isLength.trans isEmpty)
    simp only [if_pos isEmpty, noItems]
    exact ⟨obj, heap, rfl, Change.ofObject inMemory rfl wellFormed heap.propMaps, noItems⟩
  · have isBelow := obj.arrayLen.toNat_lt
    have isIdx : (UInt32.ofNat (obj.arrayLen.toNat - 1)).toNat = obj.arrayLen.toNat - 1 :=
      UInt32.toNat_ofNat_of_lt' (show obj.arrayLen.toNat - 1 < 2 ^ 32 by omega)
    obtain ⟨buffer, isBuffer⟩ := wellFormed.exists_buffer_of_lt (Nat.pos_of_ne_zero isEmpty)
    have idx_le : (UInt32.ofNat (obj.arrayLen.toNat - 1)).toNat ≤ obj.arrayCap.toNat := by
      rw [isIdx]
      exact (Nat.sub_le _ _).trans wellFormed.len_le
    simp only [if_neg isEmpty]
    refine ⟨_, heap, ?_, Change.ofLen inMemory wellFormed idx_le, ?_⟩
    · rw [arrayGet_eq wellFormed, isIdx, List.getLast?_eq_getElem?, isLength]
      rfl
    · rw [ArrayObject.items_resized isBuffer, isIdx, List.dropLast_eq_take, isLength,
        ArrayObject.items_eq isBuffer, Buffer.take_contents (Nat.sub_le _ _)]

include inMemory wellFormed in
/-- `delete_property_index` overwrites an element of the list; past the end there is nothing
that it could delete. -/
theorem deletePropertyIndex_spec (address : ℕ) (idx : UInt32) :
    heap.Yields obj (heap.deletePropertyIndex address obj idx)
      (decide (idx.toNat < (obj.items heap.words).length))
      (if idx.toNat < (obj.items heap.words).length then
        (obj.items heap.words).set idx.toNat .undefined
      else obj.items heap.words) := by
  have isLength : (obj.items heap.words).length = obj.arrayLen.toNat := wellFormed.length_items
  rw [deletePropertyIndex, isLength]
  by_cases inRange : idx < obj.arrayLen
  · have inItems := UInt32.lt_iff_toNat_lt.mp inRange
    obtain ⟨buffer, isBuffer⟩ := wellFormed.exists_buffer_of_lt inItems
    simp only [if_pos inRange, if_pos inItems, isBuffer, decide_eq_true inItems]
    exact yields_write inMemory wellFormed isBuffer inItems .undefined
  · have notInItems : ¬idx.toNat < obj.arrayLen.toNat := fun inItems =>
      inRange (UInt32.lt_iff_toNat_lt.mpr inItems)
    have notFound : (obj.props.find? fun prop => prop.key = ⟨.index, idx⟩) = none := by
      rw [List.find?_eq_none]
      intro prop isProp isKey
      have isAtom := wellFormed.named prop isProp
      rw [of_decide_eq_true isKey] at isAtom
      cases isAtom
    obtain ⟨propMaps, isDeleted⟩ := deletePropValue_eq heap address notFound
    rw [if_neg inRange, if_neg notInItems, decide_eq_false notInItems, isDeleted]
    exact ⟨obj, { heap with propMaps := propMaps }, rfl,
      Change.ofObject inMemory rfl wellFormed propMaps, rfl⟩

include small inMemory wellFormed in
/-- `array_set_length` fails for want of memory alone, and otherwise resizes the list. -/
theorem arraySetLength_spec (number : Int32) :
    (¬heap.HasRoom obj number.toInt.toNat ∧
      heap.arraySetLength obj (.int number) = some (false, obj, heap)) ∨
    heap.Yields obj (heap.arraySetLength obj (.int number)) (!decide (number < 0))
      (if number < 0 then obj.items heap.words
        else resize (obj.items heap.words) number.toInt.toNat) := by
  have isLength : (obj.items heap.words).length = obj.arrayLen.toNat := wellFormed.length_items
  have isBelow := obj.arrayLen.toNat_lt
  have number_lt : number.toInt.toNat < 2 ^ 31 := by
    have bound := number.toInt_lt
    omega
  have isNewLen : (UInt32.ofNat number.toInt.toNat).toNat = number.toInt.toNat :=
    UInt32.toNat_ofNat_of_lt' (show number.toInt.toNat < 2 ^ 32 by omega)
  rw [arraySetLength]
  by_cases isNegative : number < 0
  · simp only [if_pos isNegative, decide_eq_true isNegative]
    exact .inr ⟨obj, heap, rfl, Change.ofObject inMemory rfl wellFormed heap.propMaps, rfl⟩
  · simp only [if_neg isNegative, decide_eq_false isNegative, resize, isLength]
    generalize number.toInt.toNat = newLen at isNewLen number_lt ⊢
    by_cases isLonger : obj.arrayLen.toNat < newLen
    · simp only [if_pos isLonger]
      have takeAll := List.take_of_length_le (isLength.trans_le isLonger.le)
      rcases reserve_spec small inMemory wellFormed (show newLen ≤ 2 ^ 32 by omega) with
        ⟨noRoom, failed⟩ | ⟨grown, next, reserved, change, sameItems, sameLen, needed_le⟩
      · refine .inl ⟨noRoom, ?_⟩
        rw [failed]
        rfl
      · have hasCap := (Nat.zero_lt_of_lt isLonger).trans_le needed_le
        obtain ⟨buffer, isBuffer⟩ := change.wellFormed.exists_buffer hasCap
        have sameCap := ArrayObject.cap_eq isBuffer
        have inFill : obj.arrayLen.toNat + (newLen - obj.arrayLen.toNat) ≤ buffer.cap := by omega
        obtain ⟨words, isFilled, wrote⟩ :=
          Buffer.fill_eq_some inFill JSValue.undefined next.words
        refine .inr ⟨{ grown with arrayLen := UInt32.ofNat newLen },
          { next with words := words }, ?_, ?_, ?_⟩
        · simp only [reserved, Option.bind_some, clear, isBuffer, isFilled, Option.map_some,
            not_true, if_false, Bool.not_false]
        · have filling := Change.ofWrote change.inMemory change.wellFormed isBuffer wrote inFill
            (isNewLen.trans_le needed_le)
          exact change.trans filling
        · have isGrown : buffer.contents next.words obj.arrayLen.toNat = obj.items heap.words := by
            rw [← sameItems, ArrayObject.items_eq isBuffer, sameLen]
          have isItems := wrote.contents_append
          rw [isGrown, Nat.add_sub_of_le isLonger.le] at isItems
          rw [ArrayObject.items_resized isBuffer, isNewLen, isItems, takeAll]
    · simp only [if_neg isLonger]
      have noGap := Nat.sub_eq_zero_of_le (Nat.le_of_not_lt isLonger)
      rw [noGap, List.replicate_zero, List.append_nil]
      by_cases isShorter : newLen < obj.arrayLen.toNat
      · obtain ⟨buffer, isBuffer⟩ := wellFormed.exists_buffer_of_lt isShorter
        have sameCap := ArrayObject.cap_eq isBuffer
        have len_le := wellFormed.len_le
        have inFill : newLen + (obj.arrayLen.toNat - newLen) ≤ buffer.cap := by omega
        obtain ⟨words, isFilled, wrote⟩ :=
          Buffer.fill_eq_some inFill JSValue.undefined heap.words
        refine .inr ⟨{ obj with arrayLen := UInt32.ofNat newLen },
          { heap with words := words }, ?_, ?_, ?_⟩
        · simp only [if_pos isShorter, clear, isBuffer, isFilled, Option.map_some,
            Bool.not_false]
        · exact Change.ofWrote inMemory wellFormed isBuffer wrote inFill (by omega)
        · rw [ArrayObject.items_resized isBuffer, isNewLen, wrote.contents_eq (Nat.le_refl _),
            ArrayObject.items_eq isBuffer, Buffer.take_contents isShorter.le]
      · have sameLen : newLen = obj.arrayLen.toNat := by omega
        rw [if_neg isShorter, sameLen, UInt32.ofNat_toNat, ← isLength, List.take_length]
        exact .inr ⟨obj, heap, rfl, Change.ofObject inMemory rfl wellFormed heap.propMaps, rfl⟩

include small inMemory wellFormed in
/-- An operation does what it does on the list, or fails for want of memory, and then
changes nothing at all. -/
theorem exec_spec (address : ℕ) (op : Op) :
    (¬heap.HasRoom obj (op.needed (obj.items heap.words).length) ∧
      heap.exec address obj op = some (op.failure, obj, heap)) ∨
    heap.Yields obj (heap.exec address obj op) (op.onList (obj.items heap.words)).1
      (op.onList (obj.items heap.words)).2 := by
  have isLength : (obj.items heap.words).length = obj.arrayLen.toNat := wellFormed.length_items
  have unchanged : Change heap heap obj obj :=
    Change.ofObject inMemory rfl wellFormed heap.propMaps
  cases op with
  | get idx =>
      rw [exec, arrayGet_eq wellFormed]
      exact .inr ⟨obj, heap, rfl, unchanged, rfl⟩
  | set idx value =>
      rw [exec]
      rcases arraySet_spec small inMemory wellFormed idx value with ⟨noRoom, failed⟩ | yields
      · rw [failed]
        exact .inl ⟨noRoom, rfl⟩
      · exact .inr (yields.map Answer.success)
  | setLength value =>
      rw [exec]
      cases value with
      | int number =>
          rcases arraySetLength_spec small inMemory wellFormed number with
            ⟨noRoom, failed⟩ | yields
          · rw [failed]
            exact .inl ⟨noRoom, rfl⟩
          · refine .inr ?_
            have answered := yields.map Answer.success
            rw [Op.onList]
            by_cases isNegative : number < 0
            · simpa [isNegative] using answered
            · simpa [isNegative] using answered
      | _ => exact .inr ⟨obj, heap, rfl, unchanged, rfl⟩
  | push elem =>
      rw [exec]
      rcases arrayPush_spec small inMemory wellFormed elem with ⟨noRoom, failed⟩ | yields
      · rw [failed, isLength]
        exact .inl ⟨noRoom, rfl⟩
      · exact .inr (yields.map Answer.length)
  | pop =>
      rw [exec]
      exact .inr ((arrayPop_spec inMemory wellFormed).map Answer.value)
  | delete idx =>
      rw [exec, Op.onList]
      have answered := (deletePropertyIndex_spec inMemory wellFormed address idx).map
        Answer.success
      refine .inr ?_
      by_cases inRange : idx.toNat < (obj.items heap.words).length
      · simpa [inRange] using answered
      · simpa [inRange] using answered

end Operations

/-! ## All arrays -/

section Change

variable {after : Heap} {changed : ArrayObject} {address : ℕ}

/-- The buffer of the changed array is apart from those of all others. -/
theorem WellFormed.apart_changed (wellFormed : heap.WellFormed)
    (isArray : heap.arrays address = some obj) (change : Change heap after obj changed)
    {other : ℕ} (notSame : other ≠ address) {otherObj : ArrayObject}
    (isOther : heap.arrays other = some otherObj) {buffer otherBuffer : Buffer}
    (isBuffer : changed.buffer = some buffer) (isOtherBuffer : otherObj.buffer = some otherBuffer) :
    otherBuffer.block.Apart buffer.block := by
  rcases change.buffer with same | ⟨fresh, isFresh, isBehind⟩
  · rw [same] at isBuffer
    exact wellFormed.apart other address otherObj obj otherBuffer buffer notSame isOther isArray
      isOtherBuffer isBuffer
  · rw [isFresh, Option.some.injEq] at isBuffer
    rw [← isBuffer]
    have inUse := (wellFormed.arrays other otherObj isOther).inUse otherBuffer isOtherBuffer
    exact .inl (inUse.trans isBehind)

/-- The elements of other arrays stay. -/
theorem WellFormed.items_other (wellFormed : heap.WellFormed)
    (isArray : heap.arrays address = some obj) (change : Change heap after obj changed)
    {other : ℕ} (notSame : other ≠ address) {otherObj : ArrayObject}
    (isOther : heap.arrays other = some otherObj) :
    otherObj.items after.words = otherObj.items heap.words := by
  have inOrder := wellFormed.arrays other otherObj isOther
  have len_le := inOrder.len_le
  cases isOtherBuffer : otherObj.buffer with
  | none => rw [ArrayObject.items, ArrayObject.items, isOtherBuffer]
  | some otherBuffer =>
      have inUse := inOrder.inUse otherBuffer isOtherBuffer
      have sameCap := ArrayObject.cap_eq isOtherBuffer
      rw [ArrayObject.items_eq isOtherBuffer, ArrayObject.items_eq isOtherBuffer]
      refine Buffer.contents_congr fun index inRange => change.words _ ?_ fun buffer isBuffer => ?_
      · unfold Buffer.place
        omega
      · have apart := wellFormed.apart other address otherObj obj otherBuffer buffer notSame
          isOther isArray isOtherBuffer isBuffer
        unfold Buffer.block Blocks.Block.Apart at apart
        dsimp only at apart
        unfold Buffer.place
        omega

/-- More memory in use keeps all arrays in order. -/
theorem WellFormed.grow (wellFormed : heap.WellFormed)
    (sameSize : after.mem.size = heap.mem.size) (grows : heap.mem.offset ≤ after.mem.offset)
    (inMemory : after.mem.offset ≤ after.mem.size) (sameArrays : after.arrays = heap.arrays) :
    after.WellFormed := by
  refine ⟨sameSize.trans_lt wellFormed.small, inMemory, ?_, ?_, ?_⟩
  · intro address obj isArray
    rw [sameArrays] at isArray
    exact (wellFormed.inUse address obj isArray).trans_le grows
  · intro address obj isArray
    rw [sameArrays] at isArray
    exact (wellFormed.arrays address obj isArray).mono grows
  · rw [sameArrays]
    exact wellFormed.apart

/-- An array is put where its buffer is apart from those of all others. -/
theorem WellFormed.insert (wellFormed : heap.WellFormed) (inUse : address < heap.mem.offset)
    (inOrder : changed.WellFormed heap.mem.offset)
    (apart : ∀ {other : ℕ} {otherObj : ArrayObject} {buffer otherBuffer : Buffer},
      other ≠ address → heap.arrays other = some otherObj → changed.buffer = some buffer →
        otherObj.buffer = some otherBuffer → otherBuffer.block.Apart buffer.block) :
    (heap.putArray address changed).WellFormed ∧
      (heap.putArray address changed).contents =
        Function.update heap.contents address (some (changed.items heap.words)) := by
  have isOther : ∀ other, other ≠ address →
      (heap.putArray address changed).arrays other = heap.arrays other :=
    fun other notSame => Function.update_of_ne notSame _ _
  have isChanged : (heap.putArray address changed).arrays address = some changed :=
    Function.update_self _ _ _
  refine ⟨⟨wellFormed.small, wellFormed.inMemory, ?_, ?_, ?_⟩, ?_⟩
  · intro other otherObj isObj
    by_cases same : other = address
    · rw [same]
      exact inUse
    · exact wellFormed.inUse other otherObj ((isOther other same).symm.trans isObj)
  · intro other otherObj isObj
    by_cases same : other = address
    · rw [same, isChanged, Option.some.injEq] at isObj
      rw [← isObj]
      exact inOrder
    · exact wellFormed.arrays other otherObj ((isOther other same).symm.trans isObj)
  · intro left right leftObj rightObj leftBuffer rightBuffer notSame isLeft isRight isLeftBuffer
      isRightBuffer
    by_cases leftSame : left = address
    · have rightOther : right ≠ address := leftSame ▸ notSame.symm
      rw [leftSame, isChanged, Option.some.injEq] at isLeft
      rw [isOther right rightOther] at isRight
      rw [← isLeft] at isLeftBuffer
      exact Or.symm (apart rightOther isRight isLeftBuffer isRightBuffer)
    · rw [isOther left leftSame] at isLeft
      by_cases rightSame : right = address
      · rw [rightSame, isChanged, Option.some.injEq] at isRight
        rw [← isRight] at isRightBuffer
        exact apart leftSame isLeft isRightBuffer isLeftBuffer
      · rw [isOther right rightSame] at isRight
        exact wellFormed.apart left right leftObj rightObj leftBuffer rightBuffer notSame isLeft
          isRight isLeftBuffer isRightBuffer
  · funext other
    by_cases same : other = address
    · rw [same, Function.update_self, contents, isChanged]
      rfl
    · rw [Function.update_of_ne same, contents, contents, isOther other same]
      rfl

/-- A change of one array keeps all arrays in order, and the other lists. -/
theorem WellFormed.putArray (wellFormed : heap.WellFormed)
    (isArray : heap.arrays address = some obj) (change : Change heap after obj changed) :
    (after.putArray address changed).WellFormed ∧
      (after.putArray address changed).contents =
        Function.update heap.contents address (some (changed.items after.words)) := by
  have grown := wellFormed.grow change.size change.grows change.inMemory change.arrays
  have inUse := (wellFormed.inUse address obj isArray).trans_le change.grows
  obtain ⟨isPut, isContents⟩ := grown.insert inUse change.wellFormed
    fun notSame isOther => wellFormed.apart_changed isArray change notSame
      ((congrFun change.arrays _).symm.trans isOther)
  refine ⟨isPut, isContents.trans ?_⟩
  funext other
  by_cases same : other = address
  · rw [same, Function.update_self, Function.update_self]
  · rw [Function.update_of_ne same, Function.update_of_ne same, contents, contents, change.arrays]
    cases isObj : heap.arrays other with
    | none => rfl
    | some otherObj => exact congrArg some (wellFormed.items_other isArray change same isObj)

end Change

/-- Memory that is taken for something else. -/
theorem WellFormed.of_below (wellFormed : heap.WellFormed) {after : Heap}
    (sameSize : after.mem.size = heap.mem.size) (grows : heap.mem.offset ≤ after.mem.offset)
    (inMemory : after.mem.offset ≤ after.mem.size) (sameArrays : after.arrays = heap.arrays)
    (sameBelow : ∀ address < heap.mem.offset, after.words address = heap.words address) :
    after.WellFormed ∧ after.contents = heap.contents := by
  refine ⟨wellFormed.grow sameSize grows inMemory sameArrays, ?_⟩
  funext address
  rw [contents, contents, sameArrays]
  cases isArray : heap.arrays address with
  | none => rfl
  | some obj => exact congrArg some (items_congr (wellFormed.arrays address obj isArray) sameBelow)

/-- A new object is an array without elements, at an address where there was no array. -/
theorem WellFormed.allocObject (wellFormed : heap.WellFormed) {address : ℕ} {after : Heap}
    (allocated : heap.allocObject = some (address, after)) :
    heap.contents address = none ∧ after.arrays address = some .empty ∧ after.WellFormed ∧
      after.contents = Function.update heap.contents address (some []) := by
  obtain ⟨⟨taken, mem⟩, isAlloc, isAfter⟩ := Option.map_eq_some_iff.mp allocated
  cases isAfter
  obtain ⟨isBehind, isOffset, sameSize, inMemory⟩ := alloc_spec isAlloc
  have isNew : heap.arrays address = none := by
    rw [Option.eq_none_iff_forall_not_mem]
    exact fun obj isArray => absurd (wellFormed.inUse address obj isArray)
      (Nat.not_lt_of_le isBehind)
  have ⟨isTaken, sameContents⟩ : WellFormed { heap with mem := mem } ∧
      contents { heap with mem := mem } = heap.contents :=
    wellFormed.of_below sameSize (by dsimp only; omega) inMemory rfl fun _ _ => rfl
  have inUse : address < mem.offset := by omega
  have inOrder : ArrayObject.empty.WellFormed mem.offset :=
    ⟨Nat.le_refl _, fun _ => rfl, nofun, nofun⟩
  have ⟨isPut, isContents⟩ := isTaken.insert inUse inOrder nofun
  rw [sameContents] at isContents
  refine ⟨?_, Function.update_self _ _ _, isPut, isContents⟩
  rw [contents, isNew]
  rfl

/-- A new array has as many elements as it was asked for, all undefined; where it fails, it
may remain as an empty one. -/
theorem WellFormed.allocArray (wellFormed : heap.WellFormed) (initialLen : ℕ) :
    ∃ created after, heap.allocArray initialLen = some (created, after) ∧ after.WellFormed ∧
      ListStep heap.contents (.newArray initialLen) (.created created) after.contents := by
  rw [Heap.allocArray]
  cases isAlloc : heap.allocObject with
  | none => exact ⟨none, heap, rfl, wellFormed, .full⟩
  | some taken =>
      obtain ⟨address, next⟩ := taken
      obtain ⟨isNew, isEmpty, inOrder, isContents⟩ := wellFormed.allocObject isAlloc
      have orphaned : ListStep heap.contents (.newArray initialLen) (.created none)
          next.contents := by
        rw [isContents]
        exact .orphaned isNew
      dsimp only
      split
      · rename_i isZero
        refine ⟨some address, next, rfl, inOrder, ?_⟩
        rw [isContents, isZero]
        exact .created 0 isNew
      · split
        · exact ⟨none, next, rfl, inOrder, orphaned⟩
        · cases isElements : next.mem.alloc (initialLen * 8) 8 with
          | none => exact ⟨none, next, rfl, inOrder, orphaned⟩
          | some elements =>
              obtain ⟨ptr, mem⟩ := elements
              obtain ⟨isBehind, isOffset, sameSize, inMemory⟩ := alloc_spec isElements
              have isSmall := inOrder.small
              have cap_lt : initialLen < 2 ^ 32 := by omega
              have isLen := UInt32.toNat_ofNat_of_lt' cap_lt
              obtain ⟨words, isFilled, wrote⟩ := Buffer.fill_eq_some
                (show 0 + initialLen ≤ (⟨ptr, initialLen⟩ : Buffer).cap by rw [Nat.zero_add])
                JSValue.undefined next.words
              have change := Change.ofFresh isSmall (inOrder.arrays address _ isEmpty) isElements
                (fun other isBelow => wrote.eq_of_outside (by rw [Nat.zero_add])
                  (.inl (isBelow.trans_le isBehind))) isLen.le
              obtain ⟨isPut, putContents⟩ := inOrder.putArray isEmpty change
              rw [isContents, Function.update_idem, ArrayObject.items_eq
                (ArrayObject.empty.buffer_fresh _ ptr cap_lt)] at putContents
              have isItems := wrote.contents_append
              rw [Nat.zero_add] at isItems
              dsimp only at putContents
              rw [isLen, isItems] at putContents
              refine ⟨some address, _, ?_, isPut, ?_⟩
              · simp only [isFilled, Option.map_some]
              · rw [putContents]
                exact .created initialLen isNew

theorem contents_of_array {address : ℕ} (isArray : heap.arrays address = some obj) :
    heap.contents address = some (obj.items heap.words) := by
  rw [contents, isArray, Option.map_some]

/-- Named properties are no part of the lists. -/
theorem WellFormed.setNamed (wellFormed : heap.WellFormed) (address : ℕ) (props : List Property)
    (propCount : ℕ) (map : Option PropMap) :
    (heap.setNamed address props propCount map).WellFormed ∧
      (heap.setNamed address props propCount map).contents = heap.contents := by
  rw [Heap.setNamed]
  cases isArray : heap.arrays address with
  | none => exact ⟨wellFormed, rfl⟩
  | some obj =>
      dsimp only
      split
      · rename_i isNamed
        have inOrder := wellFormed.arrays address obj isArray
        have renamed : ({ obj with props := props, propCount := propCount } :
            ArrayObject).WellFormed heap.mem.offset :=
          ⟨inOrder.len_le, inOrder.nonNull, inOrder.inUse, isNamed⟩
        have sameBuffer : ({ obj with props := props, propCount := propCount } :
            ArrayObject).buffer = obj.buffer := rfl
        obtain ⟨isPut, isContents⟩ := wellFormed.putArray isArray
          (Change.ofObject wellFormed.inMemory sameBuffer renamed
            (Function.update heap.propMaps address map))
        refine ⟨isPut, isContents.trans ?_⟩
        rw [Function.update_eq_self_iff, contents_of_array isArray]
        rfl
      · exact ⟨wellFormed, rfl⟩

theorem WellFormed.takeMemory (wellFormed : heap.WellFormed) (size : ℕ) (content : ℕ → JSValue) :
    (heap.takeMemory size content).WellFormed ∧
      (heap.takeMemory size content).contents = heap.contents := by
  rw [Heap.takeMemory]
  cases isAlloc : heap.mem.alloc size 8 with
  | none => exact ⟨wellFormed, rfl⟩
  | some taken =>
      obtain ⟨raw, mem⟩ := taken
      obtain ⟨isBehind, isOffset, sameSize, inMemory⟩ := alloc_spec isAlloc
      refine wellFormed.of_below sameSize (by dsimp only; omega) inMemory rfl ?_
      intro address isBelow
      exact if_neg (by omega)

/-- Where there is no room, the operation needs a length above that of the list. -/
theorem lengthens_of_not_hasRoom {offset : ℕ} (wellFormed : obj.WellFormed offset) {needed : ℕ}
    (noRoom : ¬heap.HasRoom obj needed) : (obj.items heap.words).length < needed := by
  rw [HasRoom, not_or] at noRoom
  rw [wellFormed.length_items]
  exact lt_of_le_of_lt wellFormed.len_le (Nat.lt_of_not_le noRoom.1)

/-- A step makes no access outside the buffers, and does what it does on lists. -/
theorem WellFormed.step (wellFormed : heap.WellFormed) (step : Step) :
    ∃ answer after, heap.step step = some (answer, after) ∧ after.WellFormed ∧
      ListStep heap.contents step answer after.contents := by
  cases step with
  | op address op =>
      rw [Heap.step]
      cases isArray : heap.arrays address with
      | none =>
          refine ⟨.nothing, heap, rfl, wellFormed, .absent ?_⟩
          rw [contents, isArray]
          rfl
      | some obj =>
          have isList := contents_of_array isArray
          have inOrder := wellFormed.arrays address obj isArray
          rcases exec_spec wellFormed.small wellFormed.inMemory inOrder address op with
            ⟨noRoom, failed⟩ | ⟨changed, after, answered, change, isItems⟩
          · have unchanged : Change heap heap obj obj :=
              Change.ofObject wellFormed.inMemory rfl inOrder heap.propMaps
            obtain ⟨isPut, isContents⟩ := wellFormed.putArray isArray unchanged
            rw [← isList, Function.update_eq_self] at isContents
            refine ⟨op.failure, heap.putArray address obj, ?_, isPut, ?_⟩
            · simp only [failed, Option.map_some]
            · rw [isContents]
              exact .failed isList (lengthens_of_not_hasRoom inOrder noRoom)
          · obtain ⟨isPut, isContents⟩ := wellFormed.putArray isArray change
            refine ⟨(op.onList (obj.items heap.words)).1, after.putArray address changed, ?_, isPut,
              ?_⟩
            · simp only [answered, Option.map_some]
            · rw [isContents, isItems]
              exact .done op isList
  | newArray initialLen =>
      obtain ⟨created, after, allocated, isPut, isStep⟩ := wellFormed.allocArray initialLen
      refine ⟨.created created, after, ?_, isPut, isStep⟩
      rw [Heap.step, allocated, Option.map_some]
  | named address props propCount map =>
      obtain ⟨isPut, sameContents⟩ := wellFormed.setNamed address props propCount map
      refine ⟨.nothing, _, rfl, isPut, ?_⟩
      rw [sameContents]
      exact .named
  | alloc size content =>
      obtain ⟨isTaken, sameContents⟩ := wellFormed.takeMemory size content
      refine ⟨.nothing, _, rfl, isTaken, ?_⟩
      rw [sameContents]
      exact .alloc

theorem WellFormed.run (wellFormed : heap.WellFormed) (steps : List Step) :
    ∃ answers last, run steps heap = some (answers, last) ∧ last.WellFormed ∧
      ListRun heap.contents steps answers last.contents := by
  induction steps generalizing heap with
  | nil => exact ⟨[], heap, rfl, wellFormed, .nil⟩
  | cons step steps ih =>
      obtain ⟨answer, next, first, isNext, isStep⟩ := wellFormed.step step
      obtain ⟨answers, last, rest, isLast, isRun⟩ := ih isNext
      refine ⟨answer :: answers, last, ?_, isLast, .cons isStep isRun⟩
      simp only [Heap.run, first, Option.bind_some, rest, Option.map_some]

theorem wellFormed_new {size : ℕ} (small : size < 2 ^ 32 * 8) (words : ℕ → JSValue) :
    (new size words).WellFormed :=
  ⟨small, Nat.zero_le size, nofun, nofun, nofun⟩

end Heap

/-- Arrays refine lists.  In less than `2 ^ 32` words of memory, whatever these hold, a run of
operations on any arrays makes no access outside the capacities, returns what lists return,
and ends with their contents and all arrays in order; and there an operation that there is
room for does not fail. -/
theorem arrays_refine_lists {size : ℕ} (small : size < 2 ^ 32 * 8) (words : ℕ → JSValue)
    (steps : List Step) :
    ∃ answers heap, Heap.run steps (Heap.new size words) = some (answers, heap) ∧
      ListRun (fun _ => none) steps answers heap.contents ∧ heap.WellFormed ∧
      ∀ address obj op, heap.arrays address = some obj →
        heap.HasRoom obj (op.needed (obj.items heap.words).length) →
        heap.Yields obj (heap.exec address obj op) (op.onList (obj.items heap.words)).1
          (op.onList (obj.items heap.words)).2 := by
  obtain ⟨answers, heap, isRun, wellFormed, isListRun⟩ :=
    (Heap.wellFormed_new small words).run steps
  refine ⟨answers, heap, isRun, isListRun, wellFormed, fun address obj op isArray hasRoom => ?_⟩
  rcases Heap.exec_spec wellFormed.small wellFormed.inMemory
    (wellFormed.arrays address obj isArray) address op with ⟨noRoom, -⟩ | yields
  · exact absurd hasRoom noRoom
  · exact yields

/-- What was popped is not seen again when the array is lengthened. -/
theorem arrays_refine_lists_pop :
    ∃ answers heap,
      Heap.run [.newArray 0, .op 0 (.push (.int 7)), .op 0 .pop, .op 0 (.set 2 (.int 8)),
          .op 0 (.get 0)] (Heap.new 4096 fun _ => .null) = some (answers, heap) ∧
        ListRun (fun _ => none) [.newArray 0, .op 0 (.push (.int 7)), .op 0 .pop,
          .op 0 (.set 2 (.int 8)), .op 0 (.get 0)] answers heap.contents ∧ heap.WellFormed ∧
        ∀ address obj op, heap.arrays address = some obj →
          heap.HasRoom obj (op.needed (obj.items heap.words).length) →
          heap.Yields obj (heap.exec address obj op) (op.onList (obj.items heap.words)).1
            (op.onList (obj.items heap.words)).2 :=
  arrays_refine_lists (by decide) _ _

example : (Heap.run [.newArray 0, .op 0 (.push (.int 7)), .op 0 .pop, .op 0 (.set 2 (.int 8)),
      .op 0 (.get 0)] (Heap.new 4096 fun _ => .null)).map Prod.fst =
    some [.created (some 0), .length (some 1), .value (.int 7), .success true,
      .value .undefined] := by
  decide

end Arrays
end Script
end MuonJs
