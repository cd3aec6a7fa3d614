import MuonJs.Cache.Float

/-!
# The heap of the script engine

The part of `Context` that holds strings, numbers and objects: a region from
which memory is taken and never given back, the atoms, and for every object a
list of properties, to which a side map is added when the object has more than
`PROP_MAP_THRESHOLD` properties.

A pointer is the offset of a cell in the region.  A linked list of properties is
modelled as a list; the memory of its nodes is still taken from the region.
-/

namespace MuonJs
namespace Script

open Cache (Bytes F64 natBytes asBytes fromUtf8)

/-- A JS value (`Value`): a tagged integer, a special value or a pointer. -/
inductive JSValue
  | int (value : Int32)
  | bool (value : Bool)
  | null
  | undefined
  | exception
  | ptr (address : ℕ)
  deriving DecidableEq

/-! ## Memory -/

/-- `MemoryRegion`: the part before the offset is in use. -/
structure MemoryRegion where
  size : ℕ
  offset : ℕ

/-- `align_up`, for an alignment that is a power of two. -/
def alignUp (value align : ℕ) : ℕ :=
  if align = 0 then value else (value + align - 1) / align * align

/-- `MemoryRegion::alloc`. -/
def MemoryRegion.alloc (mem : MemoryRegion) (size align : ℕ) : Option (ℕ × MemoryRegion) :=
  let aligned := alignUp mem.offset align
  if mem.size < aligned + size then none
  else some (aligned, { mem with offset := aligned + size })

/-! ## Objects -/

/-- `PROP_KEY_ATOM` or `PROP_KEY_INDEX`. -/
inductive KeyKind
  | atom
  | index
  deriving DecidableEq

/-- The key of a property: its kind with an atom or an index. -/
structure PropKey where
  kind : KeyKind
  key : UInt32
  deriving DecidableEq

/-- `prop_map_key`. -/
def PropKey.mapKey (key : PropKey) : UInt64 :=
  match key.kind with
  | .atom => key.key.toUInt64
  | .index => 0x100000000 ||| key.key.toUInt64

/-- One node of an object's property list. -/
structure Property where
  key : PropKey
  value : JSValue

/-- `HeapObject`, an object or an array. -/
structure HeapObject where
  isArray : Bool
  classId : UInt32
  proto : JSValue
  props : List Property
  propCount : ℕ
  arrayLen : UInt32
  arrayCap : UInt32
  elements : Option (List JSValue)

namespace HeapObject

/-- The value of the first property with the key. -/
def findProp (obj : HeapObject) (key : PropKey) : Option JSValue :=
  (obj.props.find? fun prop => prop.key = key).map Property.value

/-- Overwrite the value of the first property with the key. -/
def overwrite (key : PropKey) (value : JSValue) : List Property → List Property
  | [] => []
  | prop :: rest =>
      if prop.key = key then { prop with value := value } :: rest
      else prop :: overwrite key value rest

/-- Append a property. -/
def append (obj : HeapObject) (key : PropKey) (value : JSValue) : HeapObject :=
  { obj with
    props := obj.props ++ [⟨key, value⟩]
    propCount := min (obj.propCount + 1) (2 ^ 32 - 1) }

/-- Unlink the first property with the key. -/
def unlink (obj : HeapObject) (key : PropKey) : HeapObject :=
  { obj with
    props := obj.props.eraseP fun prop => prop.key = key
    propCount := obj.propCount - 1 }

end HeapObject

/-- What lies at a pointer. -/
inductive Cell
  | string (bytes : Bytes)
  | float (value : F64)
  | object (obj : HeapObject)

/-- Side map of an object: the values by packed key. -/
abbrev PropMap := UInt64 → Option JSValue

/-- `PROP_MAP_THRESHOLD`. -/
def propMapThreshold : ℕ := 8

/-- The classes `Object` and `Array` of `JSObjectClassEnum`. -/
def objectClass : UInt32 := 0

@[inherit_doc objectClass]
def arrayClass : UInt32 := 1

/-- `PROTO_SEARCH_LIMIT`. -/
def protoSearchLimit : ℕ := 64

/-! ## Atoms -/

/-- `fnv1a_hash`. -/
def fnv1aHash (bytes : Bytes) : UInt64 :=
  bytes.foldl (fun h byte => (h ^^^ byte.toUInt64) * 0x100000001b3)
    0xcbf29ce484222325

/-- `AtomTable`: the text of every atom, none for the reserved atom `0`, and the
last atom of every hash. -/
structure AtomTable where
  entries : List (Option Bytes)
  index : UInt64 → Option UInt32

namespace AtomTable

/-- `AtomTable::new`. -/
def new : AtomTable := ⟨[none], fun _ => none⟩

/-- `AtomTable::find`: the hash leads to an atom; on a collision all atoms are
searched. -/
def find (atoms : AtomTable) (bytes : Bytes) : Option UInt32 :=
  match atoms.index (fnv1aHash bytes) with
  | none => none
  | some id =>
      if atoms.entries[id.toNat]? = some (some bytes) then some id
      else (atoms.entries.findIdx? (· = some bytes)).map UInt32.ofNat

/-- `AtomTable::push`. -/
def push (atoms : AtomTable) (bytes : Bytes) : UInt32 × AtomTable :=
  let id := UInt32.ofNat atoms.entries.length
  (id, ⟨atoms.entries ++ [some bytes],
    Function.update atoms.index (fnv1aHash bytes) (some id)⟩)

end AtomTable

/-! ## The context -/

/-- The part of `Context` that the functions below use. -/
structure Context where
  mem : MemoryRegion
  heap : ℕ → Option Cell
  atoms : AtomTable
  propMaps : ℕ → Option PropMap
  objectProto : JSValue

namespace Context

/-- `Context::new` for a region of memory, before it makes the global object. -/
def new (size : ℕ) : Context :=
  ⟨⟨size, 0⟩, fun _ => none, .new, fun _ => none, .undefined⟩

/-- Take memory and put a cell there. -/
def allocCell (ctx : Context) (size : ℕ) (cell : Cell) : Option (ℕ × Context) :=
  (ctx.mem.alloc size 8).map fun (address, mem) =>
    (address, { ctx with mem := mem, heap := Function.update ctx.heap address (some cell) })

/-- `Context::alloc_string`: a header, the bytes and a zero. -/
def allocString (ctx : Context) (bytes : Bytes) : Option (ℕ × Context) :=
  ctx.allocCell (8 + bytes.length + 1) (.string bytes)

/-- `Context::alloc_float`. -/
def allocFloat (ctx : Context) (value : F64) : Option (ℕ × Context) :=
  ctx.allocCell 16 (.float value)

/-- `Context::string_bytes`. -/
def stringBytes (ctx : Context) : JSValue → Option Bytes
  | .ptr address =>
      match ctx.heap address with
      | some (.string bytes) => some bytes
      | _ => none
  | _ => none

/-- `Context::object_ptr`. -/
def objectPtr (ctx : Context) : JSValue → Option (ℕ × HeapObject)
  | .ptr address =>
      match ctx.heap address with
      | some (.object obj) => some (address, obj)
      | _ => none
  | _ => none

/-- `Context::new_object`, with `alloc_object`. -/
def newObject (ctx : Context) (classId : UInt32) : Option (JSValue × Context) :=
  let proto := if classId = objectClass ∧ ctx.objectProto ≠ .undefined then ctx.objectProto
    else .null
  (ctx.allocCell 80 (.object ⟨decide (classId = arrayClass), classId, proto, [], 0, 0, 0, none⟩)).map
    fun (address, ctx) => (.ptr address, ctx)

/-- `Context::set_object_proto_default`. -/
def setObjectProtoDefault (ctx : Context) (proto : JSValue) : Context :=
  { ctx with objectProto := proto }

/-- Write an object back. -/
def putObject (ctx : Context) (address : ℕ) (obj : HeapObject) : Context :=
  { ctx with heap := Function.update ctx.heap address (some (.object obj)) }

/-- `Context::set_object_proto`. -/
def setObjectProto (ctx : Context) (val proto : JSValue) : Bool × Context :=
  match ctx.objectPtr val with
  | none => (false, ctx)
  | some (address, obj) => (true, ctx.putObject address { obj with proto := proto })

/-- Write the side map of an object. -/
def putMap (ctx : Context) (address : ℕ) (map : PropMap) : Context :=
  { ctx with propMaps := Function.update ctx.propMaps address (some map) }

/-- `Context::intern_string`. -/
def internString (ctx : Context) (bytes : Bytes) : Option UInt32 × Context :=
  match ctx.atoms.find bytes with
  | some id => (some id, ctx)
  | none =>
      match ctx.allocString bytes with
      | none => (none, ctx)
      | some (_, ctx) =>
          let (id, atoms) := ctx.atoms.push bytes
          (some id, { ctx with atoms := atoms })

/-- `Context::atom_bytes`; the reserved atom, where the source reads through a null
pointer, has no bytes here. -/
def atomBytes (ctx : Context) (id : UInt32) : Option Bytes :=
  ctx.atoms.entries[id.toNat]?.join

/-! ## Properties of one object -/

/-- The side map, consulted only above the threshold. -/
def sideMap (ctx : Context) (address : ℕ) (obj : HeapObject) : Option PropMap :=
  if propMapThreshold < obj.propCount then ctx.propMaps address else none

/-- `Context::find_prop_value`. -/
def findPropValue (ctx : Context) (address : ℕ) (obj : HeapObject) (key : PropKey) :
    Option JSValue :=
  match ctx.sideMap address obj with
  | some map => map key.mapKey
  | none => obj.findProp key

/-- `Context::alloc_property`. -/
def allocProperty (ctx : Context) : Option Context :=
  (ctx.mem.alloc 24 8).map fun (_, mem) => { ctx with mem := mem }

/-- The side map made of all properties, the last value of a key counting. -/
def mapOfProps (props : List Property) : PropMap :=
  props.foldl (fun map prop => Function.update map prop.key.mapKey (some prop.value))
    fun _ => none

/-- `Context::set_prop_value`. -/
def setPropValue (ctx : Context) (address : ℕ) (obj : HeapObject) (key : PropKey)
    (value : JSValue) : Bool × Context :=
  match ctx.sideMap address obj with
  | some map =>
      let ctx := ctx.putMap address (Function.update map key.mapKey (some value))
      if (map key.mapKey).isSome then
        (true, ctx.putObject address
          { obj with props := HeapObject.overwrite key value obj.props })
      else
        match ctx.allocProperty with
        | none => (false, ctx)
        | some ctx => (true, ctx.putObject address (obj.append key value))
  | none =>
      if (obj.findProp key).isSome then
        (true, ctx.putObject address
          { obj with props := HeapObject.overwrite key value obj.props })
      else
        match ctx.allocProperty with
        | none => (false, ctx)
        | some ctx =>
            let obj := obj.append key value
            let ctx := ctx.putObject address obj
            if propMapThreshold < obj.propCount ∧ (ctx.propMaps address).isNone then
              (true, ctx.putMap address (mapOfProps obj.props))
            else (true, ctx)

/-- `Context::delete_prop_value`. -/
def deletePropValue (ctx : Context) (address : ℕ) (obj : HeapObject) (key : PropKey) :
    Bool × Context :=
  let ctx := match ctx.sideMap address obj with
    | some map => ctx.putMap address (Function.update map key.mapKey none)
    | none => ctx
  if (obj.findProp key).isSome then (true, ctx.putObject address (obj.unlink key))
  else (false, ctx)

/-! ## Arrays -/

/-- `Context::array_get`. -/
def arrayGet (obj : HeapObject) (idx : UInt32) : JSValue :=
  if obj.arrayLen ≤ idx then .undefined
  else
    match obj.elements with
    | none => .undefined
    | some elements => elements[idx.toNat]?.getD .undefined

/-- `Context::array_grow`. -/
def arrayGrow (ctx : Context) (obj : HeapObject) (needed : ℕ) :
    Option (HeapObject × Context) :=
  let current := obj.arrayCap.toNat
  let newCap := max (if current = 0 then 4 else current * 2) needed
  (ctx.mem.alloc (newCap * 8) 8).map fun (_, mem) =>
    let kept := (obj.elements.getD []).take obj.arrayLen.toNat
    ({ obj with
        elements := some (kept ++ List.replicate (newCap - kept.length) .undefined)
        arrayCap := UInt32.ofNat newCap },
      { ctx with mem := mem })

/-- `Context::array_set`. -/
def arraySet (ctx : Context) (address : ℕ) (obj : HeapObject) (idx : UInt32)
    (value : JSValue) : Bool × Context :=
  if idx < obj.arrayLen then
    match obj.elements with
    | none => (false, ctx)
    | some elements =>
        (true, ctx.putObject address { obj with elements := some (elements.set idx.toNat value) })
  else
    let newLen := idx.toNat + 1
    match (if obj.arrayCap.toNat < newLen then ctx.arrayGrow obj newLen else some (obj, ctx)) with
    | none => (false, ctx)
    | some (obj, ctx) =>
        match obj.elements with
        | none => (false, ctx.putObject address obj)
        | some elements =>
            let len := obj.arrayLen.toNat
            let filled := elements.take len ++
              List.replicate (idx.toNat - len) .undefined ++ elements.drop idx.toNat
            (true, ctx.putObject address
              { obj with
                elements := some (filled.set idx.toNat value)
                arrayLen := UInt32.ofNat newLen })

/-- `Context::array_set_length`. -/
def arraySetLength (ctx : Context) (address : ℕ) (obj : HeapObject) (value : JSValue) :
    Bool × Context :=
  match value with
  | .int number =>
      if number < 0 then (false, ctx)
      else
        let newLen := number.toInt.toNat
        let current := obj.arrayLen.toNat
        match (if current < newLen ∧ obj.arrayCap.toNat < newLen then ctx.arrayGrow obj newLen
          else some (obj, ctx)) with
        | none => (false, ctx)
        | some (obj, ctx) =>
            let low := min current newLen
            let high := max current newLen
            (true, ctx.putObject address
              { obj with
                elements := obj.elements.map fun elements =>
                  elements.take low ++ List.replicate (high - low) .undefined ++
                    elements.drop high
                arrayLen := UInt32.ofNat newLen })
  | _ => (false, ctx)

/-! ## The entry points -/

/-- `parse_index`: decimal digits of a number in the range of `u32`. -/
def parseIndexFrom (value : ℕ) : Bytes → Option UInt32
  | [] => some (UInt32.ofNat value)
  | byte :: rest =>
      if byte < 48 ∨ 57 < byte then none
      else
        let next := value * 10 + (byte.toNat - 48)
        if 2 ^ 32 ≤ next then none else parseIndexFrom next rest

/-- `parse_index`. -/
def parseIndex (name : Bytes) : Option UInt32 :=
  if name.isEmpty then none else parseIndexFrom 0 name

/-- The loop over an object and its prototypes: the first value found, or
`undefined`; none where a prototype is not an object. -/
def getFromChain (ctx : Context) (own : ℕ → HeapObject → Option JSValue) :
    ℕ → JSValue → Option JSValue
  | 0, _ => some .undefined
  | depth + 1, current =>
      match ctx.objectPtr current with
      | none => none
      | some (address, obj) =>
          match own address obj with
          | some found => some found
          | none =>
              if obj.proto = .null ∨ obj.proto = .undefined then some .undefined
              else ctx.getFromChain own depth obj.proto

/-- The loop over an object and its prototypes: whether one of them has it. -/
def hasInChain (ctx : Context) (own : ℕ → HeapObject → Bool) : ℕ → JSValue → Bool
  | 0, _ => false
  | depth + 1, current =>
      match ctx.objectPtr current with
      | none => false
      | some (address, obj) =>
          if own address obj then true
          else if obj.proto = .null ∨ obj.proto = .undefined then false
          else ctx.hasInChain own depth obj.proto

/-- What one object holds under an atom; an array has a length. -/
def ownAtom (ctx : Context) (atom : UInt32) (isLength : Bool) (address : ℕ)
    (obj : HeapObject) : Option JSValue :=
  if obj.isArray ∧ isLength then some (.int obj.arrayLen.toInt32)
  else ctx.findPropValue address obj ⟨.atom, atom⟩

/-- What one object holds under an index; an array has its elements. -/
def ownIndex (ctx : Context) (idx : UInt32) (address : ℕ) (obj : HeapObject) :
    Option JSValue :=
  if obj.isArray ∧ idx < obj.arrayLen then some (arrayGet obj idx)
  else ctx.findPropValue address obj ⟨.index, idx⟩

/-- `Context::get_property_atom_id`. -/
def getPropertyAtomId (ctx : Context) (val : JSValue) (atom : UInt32) : Option JSValue :=
  ctx.getFromChain (ctx.ownAtom atom false) protoSearchLimit val

/-- `Context::get_property_index`. -/
def getPropertyIndex (ctx : Context) (val : JSValue) (idx : UInt32) : Option JSValue :=
  ctx.getFromChain (ctx.ownIndex idx) protoSearchLimit val

/-- `Context::get_property_str`, with `get_property_atom`. -/
def getPropertyStr (ctx : Context) (val : JSValue) (name : Bytes) :
    Option JSValue × Context :=
  match (if name = asBytes "length" then ctx.stringBytes val else none) with
  | some bytes => (some (.int (Int32.ofNat bytes.length)), ctx)
  | none =>
      match parseIndex name with
      | some idx => (ctx.getPropertyIndex val idx, ctx)
      | none =>
          match ctx.internString name with
          | (none, ctx) => (none, ctx)
          | (some atom, ctx) =>
              (ctx.getFromChain (ctx.ownAtom atom (name = asBytes "length"))
                protoSearchLimit val, ctx)

/-- `Context::has_property_index`. -/
def hasPropertyIndex (ctx : Context) (val : JSValue) (idx : UInt32) : Bool :=
  ctx.hasInChain (fun address obj => (ctx.ownIndex idx address obj).isSome)
    protoSearchLimit val

/-- `Context::has_property_str`. -/
def hasPropertyStr (ctx : Context) (val : JSValue) (name : Bytes) : Bool × Context :=
  if name = asBytes "length" ∧ (ctx.stringBytes val).isSome then (true, ctx)
  else
    match parseIndex name with
    | some idx => (ctx.hasPropertyIndex val idx, ctx)
    | none =>
        match ctx.internString name with
        | (none, ctx) => (false, ctx)
        | (some atom, ctx) =>
            (ctx.hasInChain
              (fun address obj => (ctx.ownAtom atom (name = asBytes "length") address obj).isSome)
              protoSearchLimit val, ctx)

/-- `Context::set_property_atom_id`. -/
def setPropertyAtomId (ctx : Context) (val : JSValue) (atom : UInt32) (value : JSValue) :
    Bool × Context :=
  match ctx.objectPtr val with
  | none => (false, ctx)
  | some (address, obj) => ctx.setPropValue address obj ⟨.atom, atom⟩ value

/-- `Context::set_property_index`. -/
def setPropertyIndex (ctx : Context) (val : JSValue) (idx : UInt32) (value : JSValue) :
    Bool × Context :=
  match ctx.objectPtr val with
  | none => (false, ctx)
  | some (address, obj) =>
      if obj.isArray then ctx.arraySet address obj idx value
      else ctx.setPropValue address obj ⟨.index, idx⟩ value

/-- `Context::set_property_str`. -/
def setPropertyStr (ctx : Context) (val : JSValue) (name : Bytes) (value : JSValue) :
    Bool × Context :=
  match ctx.objectPtr val with
  | none => (false, ctx)
  | some (address, obj) =>
      match parseIndex name with
      | some idx => ctx.setPropertyIndex val idx value
      | none =>
          if obj.isArray ∧ name = asBytes "length" then ctx.arraySetLength address obj value
          else
            match ctx.internString name with
            | (none, ctx) => (false, ctx)
            | (some atom, ctx) => ctx.setPropValue address obj ⟨.atom, atom⟩ value

/-- `Context::delete_property_index`: an array element becomes undefined. -/
def deletePropertyIndex (ctx : Context) (val : JSValue) (idx : UInt32) : Bool × Context :=
  match ctx.objectPtr val with
  | none => (false, ctx)
  | some (address, obj) =>
      if obj.isArray ∧ idx < obj.arrayLen then
        (true, ctx.putObject address
          { obj with elements := obj.elements.map fun elements =>
              elements.set idx.toNat .undefined })
      else ctx.deletePropValue address obj ⟨.index, idx⟩

/-- `Context::delete_property_str`. -/
def deletePropertyStr (ctx : Context) (val : JSValue) (name : Bytes) : Bool × Context :=
  match ctx.objectPtr val with
  | none => (false, ctx)
  | some (address, obj) =>
      match parseIndex name with
      | some idx => ctx.deletePropertyIndex val idx
      | none =>
          match ctx.internString name with
          | (none, ctx) => (false, ctx)
          | (some atom, ctx) => ctx.deletePropValue address obj ⟨.atom, atom⟩

/-- The name under which a property is listed: the digits of an index, or the
text of an atom when it is one. -/
def keyText (ctx : Context) (key : PropKey) : Option Bytes :=
  match key.kind with
  | .index => some (natBytes key.key.toNat)
  | .atom => (ctx.atomBytes key.key).filter fun bytes => (fromUtf8 bytes).isSome

/-- `Context::object_keys`. -/
def objectKeys (ctx : Context) (val : JSValue) : Option (List Bytes) :=
  (ctx.objectPtr val).map fun (_, obj) =>
    (if obj.isArray then (List.range obj.arrayLen.toNat).map natBytes else []) ++
      obj.props.filterMap fun prop => ctx.keyText prop.key

end Context
end Script
end MuonJs
