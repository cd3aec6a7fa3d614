import MuonJs.Script.Conversions
import MuonJs.Script.Json
import MuonJs.Script.Properties

/-!
# Property keys

What setting or deleting one property does to the others.  A name is kept as an
index when `parse_index` reads one and as an atom otherwise, so that two names
share a property only if they are two spellings of one index.  An array has all
indices below its length: a write at or beyond the length makes the elements in
between.
-/

namespace MuonJs
namespace Script

open Cache (Bytes asBytes natBytes parseF64 fromUtf8)

/-! ## Writing a property through the API -/

namespace Context

/-- The first byte is an ASCII letter, `_` or `$`. -/
def startsAlpha (name : Bytes) : Bool :=
  name.head?.any fun first =>
    65 ≤ first && first ≤ 90 || 97 ≤ first && first ≤ 122 || first = 95 || first = 36

/-- The text of a number, to which arrays have no property. -/
def isNumericLike (name : Bytes) : Bool :=
  let trimmed := trim name
  if trimmed.isEmpty then false
  else trimmed = asBytes "NaN" || trimmed = asBytes "Infinity" || trimmed = asBytes "+Infinity" ||
    trimmed = asBytes "-Infinity" || (parseF64 trimmed).isSome

/-- An array refuses the name of a property. -/
def refusesName (name : Bytes) : Bool :=
  !startsAlpha name && !(parseIndex name).isSome &&
    !(name = asBytes "length" || Json.isAccessorName name) && isNumericLike name

/-- `js_set_property_str`; an exception where the property cannot be set. -/
def jsSetProperty (engine : Json.Engine) (ctx : Context) (this : JSValue) (name : Bytes)
    (value : JSValue) : JSValue × Context :=
  match ctx.objectPtr this with
  | some (_, obj) =>
      if obj.classId = arrayClass && refusesName name then (.exception, ctx)
      else ctx.jsSetPropertyStr engine this name value
  | none => ctx.jsSetPropertyStr engine this name value

/-- `Context::array_direct_set`. -/
def arrayDirectSet (ctx : Context) (val : JSValue) (idx : UInt32) (elem : JSValue) :
    Bool × Context :=
  match ctx.objectPtr val with
  | none => (false, ctx)
  | some (address, obj) =>
      if obj.isArray then ctx.arraySet address obj idx elem else (false, ctx)

/-- `typed_array_kind_from_class_id` knows the class of the value, from `Uint8cArray` to
`Float64Array`. -/
def isTypedArray (ctx : Context) (val : JSValue) : Bool :=
  (ctx.objectPtr val).any fun (_, obj) => 19 ≤ obj.classId && obj.classId ≤ 27

end Context

/-- What `typed_array_set_element` depends on beside the context, which the bytes of
buffers are no part of: whether it finds the element in its buffer, and the conversion of
the value to a number. -/
structure TypedElements where
  found : Context → JSValue → UInt32 → Bool
  conversions : Conversions

namespace Context

/-- `js_set_property_uint32`. -/
def jsSetPropertyUint32 (elements : TypedElements) (ctx : Context) (this : JSValue)
    (idx : UInt32) (value : JSValue) : JSValue × Context :=
  let (isSet, ctx) := ctx.arrayDirectSet this idx value
  if isSet then (value, ctx)
  else if ctx.isTypedArray this then
    if elements.found ctx this idx then (value, (ctx.jsToNumber elements.conversions value).2)
    else (.undefined, ctx)
  else
    let (isSet, ctx) := ctx.setPropertyIndex this idx value
    (if isSet then value else .exception, ctx)

end Context

/-- The ways to set or delete one property: the entry points of the context, those
of the API, and an assignment to `o[i]` for a tagged integer, which goes to
`js_set_property_uint32` with `i as u32`. -/
inductive Write
  | set (name : Bytes) (value : JSValue)
  | setIndex (idx : UInt32) (value : JSValue)
  | jsSet (name : Bytes) (value : JSValue)
  | jsSetUint32 (idx : UInt32) (value : JSValue)
  | bracket (number : Int32) (value : JSValue)
  | delete (name : Bytes)
  | deleteIndex (idx : UInt32)

namespace Write

/-- Write to a value: whether it succeeds, and the context after it. -/
def run (engine : Json.Engine) (elements : TypedElements) (val : JSValue) (ctx : Context) :
    Write → Bool × Context
  | .set name value => ctx.setPropertyStr val name value
  | .setIndex idx value => ctx.setPropertyIndex val idx value
  | .jsSet name value =>
      let outcome := ctx.jsSetProperty engine val name value
      (outcome.1 ≠ .exception, outcome.2)
  | .jsSetUint32 idx value =>
      let outcome := ctx.jsSetPropertyUint32 elements val idx value
      (outcome.1 ≠ .exception, outcome.2)
  | .bracket number value =>
      let outcome := ctx.jsSetPropertyUint32 elements val number.toUInt32 value
      (outcome.1 ≠ .exception, outcome.2)
  | .delete name => ctx.deletePropertyStr val name
  | .deleteIndex idx => ctx.deletePropertyIndex val idx

/-- The key that is written. -/
def key : Write → Bytes
  | .set name _ | .jsSet name _ | .delete name => name
  | .setIndex idx _ | .jsSetUint32 idx _ | .deleteIndex idx => natBytes idx.toNat
  | .bracket number _ => Json.i32Bytes number

/-- It sets the property: the API puts the element of a typed array into the buffer. -/
def sets (val : JSValue) (ctx : Context) : Write → Bool
  | .delete _ | .deleteIndex _ => false
  | .jsSetUint32 .. | .bracket .. => !ctx.isTypedArray val
  | _ => true

/-- The entry point of the context that the write comes to. -/
def op : Write → PropertyOp
  | .set name value | .jsSet name value => .setStr name value
  | .setIndex idx value | .jsSetUint32 idx value => .setIndex idx value
  | .bracket number value => .setIndex number.toUInt32 value
  | .delete name => .deleteStr name
  | .deleteIndex idx => .deleteIndex idx

/-- The context in which it comes to it: a setter has been looked for. -/
def start (val : JSValue) (ctx : Context) : Write → Context
  | .jsSet name _ =>
      if Json.isAccessorName name then ctx
      else (ctx.getPropertyStr val (asBytes "__set__" ++ name)).2
  | _ => ctx

/-- It writes a value, runs no setter and no `valueOf`, and its integer is not negative. -/
def Direct (val : JSValue) (ctx : Context) : Write → Prop
  | .jsSet name value => value ≠ .exception ∧
      (Json.isAccessorName name = false →
        (ctx.getPropertyStr val (asBytes "__set__" ++ name)).1.getD .undefined = .undefined)
  | .jsSetUint32 _ value =>
      value ≠ .exception ∧ (ctx.isTypedArray val = true → ctx.objectPtr value = none)
  | .bracket number value =>
      (value ≠ .exception ∧ (ctx.isTypedArray val = true → ctx.objectPtr value = none)) ∧ 0 ≤ number
  | _ => True

end Write

/-! ## What is reported for a key -/

/-- What `get`, `has` and `keys` report for a key. -/
structure Report where
  value : JSValue
  present : Bool
  listed : Bool
  deriving DecidableEq

/-- Read a key. -/
def Context.report (ctx : Context) (val : JSValue) (name : Bytes) : Report where
  value := (ctx.getPropertyStr val name).1.getD .undefined
  present := (ctx.hasPropertyStr val name).1
  listed := decide (name ∈ (ctx.objectKeys val).getD [])

/-! ## Runs that keep the side maps right -/

namespace Context

/-- Adding a property under a name keeps the side map of the object right. -/
def SafeName (ctx : Context) (address : ℕ) (obj : HeapObject) (name : Bytes) : Prop :=
  ∀ key, (ctx.keyOf name).1 = some key → (ctx.keyOf name).2.AddsSafely address obj key

end Context

/-- The operation keeps the side map of its object right: it adds no property to
an object of eight that has a side map from before, nor without memory to one that
has more.  The elements of an array are no properties. -/
def PropertyOp.Safe (op : PropertyOp) (val : JSValue) (ctx : Context) : Prop :=
  ∀ address obj, ctx.objectPtr val = some (address, obj) →
    match op with
    | .setStr name _ =>
        (obj.isArray = true → Context.parseIndex name = none) → ctx.SafeName address obj name
    | .setAtomId atom _ =>
        atom.toNat < ctx.atoms.entries.length ∧ ctx.AddsSafely address obj ⟨.atom, atom⟩
    | .setIndex idx _ => obj.isArray = false → ctx.AddsSafely address obj ⟨.index, idx⟩
    | _ => True

/-- The action keeps the side maps right. -/
def Action.Safe (action : Action) (ctx : Context) : Prop :=
  match action with
  | .on val op => op.Safe val ctx
  | _ => True

namespace Context

/-- Atoms and array lengths have 32 bits: there are less than `2 ^ 32` atoms and
less than 32 GiB of memory. -/
structure Small (ctx : Context) : Prop where
  atoms : ctx.atoms.entries.length < 2 ^ 32
  memory : ctx.mem.size < 2 ^ 35

/-- The contexts that come from a new one by actions that keep the side maps
right. -/
inductive SafelyReached (size : ℕ) : Context → Prop
  | new : SafelyReached size (new size)
  | act {ctx : Context} (reached : SafelyReached size ctx) (small : ctx.Small)
      {action : Action} (safe : action.Safe ctx) : SafelyReached size (action.run ctx).2

/-! ## Changes of one object -/

/-- `after` comes from `before` by changes of the object at the address and by
allocations that make no object. -/
structure Isolates (address : ℕ) (before after : Context) : Prop where
  changes : Changes (some address) before after
  objects : ∀ place obj, place ≠ address → after.heap place = some (.object obj) →
    before.heap place = some (.object obj)
  entries : before.atoms.entries <+: after.atoms.entries

namespace Isolates

variable {address : ℕ} {first second third : Context}

theorem refl (address : ℕ) (ctx : Context) : Isolates address ctx ctx :=
  ⟨.refl _ ctx, fun _ _ _ stored => stored, List.prefix_rfl⟩

theorem trans (former : Isolates address first second) (latter : Isolates address second third) :
    Isolates address first third where
  changes := former.changes.trans latter.changes
  objects := fun place obj other stored =>
    former.objects place obj other (latter.objects place obj other stored)
  entries := former.entries.trans latter.entries

/-- Changes that keep the atoms, and the heap elsewhere. -/
theorem of_frame (changes : Changes (some address) first second)
    (sameAtoms : second.atoms = first.atoms)
    (sameHeap : ∀ place, place ≠ address → second.heap place = first.heap place) :
    Isolates address first second where
  changes := changes
  objects := fun place obj other stored => (sameHeap place other) ▸ stored
  entries := by rw [sameAtoms]

/-- An atom that was there keeps its text. -/
theorem getElem?_entries (isolates : Isolates address first second) {atom : UInt32}
    (isOld : atom.toNat < first.atoms.entries.length) :
    second.atoms.entries[atom.toNat]? = first.atoms.entries[atom.toNat]? := by
  obtain ⟨added, isAppend⟩ := isolates.entries
  rw [← isAppend, List.getElem?_append_left isOld]

/-- A text that was found is found again; one that is found only later has a new atom. -/
theorem find_atom (isolates : Isolates address first second) (wellFormed : first.WellFormed)
    (wellFormed' : second.WellFormed) {name : Bytes} {atom : UInt32}
    (isFound : second.atoms.find name = some atom) :
    first.atoms.find name = some atom ∨
      first.atoms.find name = none ∧ first.atoms.entries.length ≤ atom.toNat := by
  have isText := (wellFormed'.atoms.find_eq_some_iff name atom).mp isFound
  by_cases isOld : atom.toNat < first.atoms.entries.length
  · rw [isolates.getElem?_entries isOld] at isText
    exact .inl ((wellFormed.atoms.find_eq_some_iff name atom).mpr isText)
  · refine .inr ⟨?_, Nat.not_lt.mp isOld⟩
    cases isFirst : first.atoms.find name with
    | none => rfl
    | some other =>
        have isOther := (wellFormed.atoms.find_eq_some_iff name other).mp isFirst
        have isThere := (List.getElem?_eq_some_iff.mp isOther).1
        rw [← isolates.getElem?_entries isThere] at isOther
        rw [(wellFormed'.atoms.find_eq_some_iff name other).mpr isOther, Option.some.injEq] at isFound
        rw [isFound] at isThere
        exact absurd isThere isOld

end Isolates

theorem internString_isolates {ctx : Context} (wellFormed : ctx.WellFormed)
    (room : ctx.atoms.entries.length < 2 ^ 32) (address : ℕ) (text : Bytes) :
    Isolates address ctx (ctx.internString text).2 := by
  have changes := (internString_spec wellFormed room text).1.anywhere (some address)
  refine ⟨changes, ?_, ?_⟩
  · intro place obj _ stored
    unfold internString at stored
    cases isFound : ctx.atoms.find text with
    | some id =>
        rw [isFound] at stored
        exact stored
    | none =>
        rw [isFound] at stored
        cases allocated : ctx.allocString text with
        | none =>
            rw [allocated] at stored
            exact stored
        | some outcome =>
            rw [allocated] at stored
            unfold allocString allocCell at allocated
            obtain ⟨⟨new, mem⟩, -, rfl⟩ := Option.map_eq_some_iff.mp allocated
            change Function.update ctx.heap new _ place = _ at stored
            by_cases isNew : place = new
            · rw [isNew, Function.update_self] at stored
              cases stored
            · rw [Function.update_of_ne isNew] at stored
              exact stored
  · unfold internString
    cases ctx.atoms.find text with
    | some id => exact List.prefix_rfl
    | none =>
        cases allocated : ctx.allocString text with
        | none => exact List.prefix_rfl
        | some outcome =>
            unfold allocString allocCell at allocated
            obtain ⟨⟨new, mem⟩, -, rfl⟩ := Option.map_eq_some_iff.mp allocated
            exact List.prefix_append _ _

section Frames

variable {ctx : Context} {address : ℕ} (inUse : address < ctx.mem.offset)

theorem setPropValue_frame (obj : HeapObject) (key : PropKey) (value : JSValue) :
    (ctx.setPropValue address obj key value).2.atoms = ctx.atoms ∧
      ∀ place, place ≠ address →
        (ctx.setPropValue address obj key value).2.heap place = ctx.heap place := by
  have allocated_frame : ∀ {before after : Context}, before.allocProperty = some after →
      after.atoms = before.atoms ∧ after.heap = before.heap := fun allocated =>
    ⟨(allocProperty_kept allocated).2.2, (allocProperty_kept allocated).1⟩
  unfold setPropValue
  split
  · dsimp only
    split
    · exact ⟨rfl, fun place other => Function.update_of_ne other _ _⟩
    · split
      · exact ⟨rfl, fun _ _ => rfl⟩
      · rename_i after allocated
        obtain ⟨sameAtoms, sameHeap⟩ := allocated_frame allocated
        refine ⟨sameAtoms, fun place other => ?_⟩
        exact (Function.update_of_ne other _ _).trans (congrFun sameHeap place)
  · split
    · exact ⟨rfl, fun place other => Function.update_of_ne other _ _⟩
    · split
      · exact ⟨rfl, fun _ _ => rfl⟩
      · rename_i after allocated
        obtain ⟨sameAtoms, sameHeap⟩ := allocated_frame allocated
        have elsewhere : ∀ place, place ≠ address →
            (after.putObject address (obj.append key value)).heap place = ctx.heap place :=
          fun place other => (Function.update_of_ne other _ _).trans (congrFun sameHeap place)
        dsimp only
        split
        · exact ⟨sameAtoms, elsewhere⟩
        · exact ⟨sameAtoms, elsewhere⟩

theorem deletePropValue_frame (obj : HeapObject) (key : PropKey) :
    (ctx.deletePropValue address obj key).2.atoms = ctx.atoms ∧
      ∀ place, place ≠ address →
        (ctx.deletePropValue address obj key).2.heap place = ctx.heap place := by
  have side_frame : (ctx.withoutSide address obj key).atoms = ctx.atoms ∧
      (ctx.withoutSide address obj key).heap = ctx.heap := by
    unfold withoutSide
    split <;> exact ⟨rfl, rfl⟩
  rw [deletePropValue_eq]
  split
  · refine ⟨side_frame.1, fun place other => ?_⟩
    exact (Function.update_of_ne other _ _).trans (congrFun side_frame.2 place)
  · exact ⟨side_frame.1, fun place _ => congrFun side_frame.2 place⟩

include inUse in
theorem setPropValue_isolates (obj : HeapObject) (key : PropKey) (value : JSValue) :
    Isolates address ctx (ctx.setPropValue address obj key value).2 :=
  .of_frame (setPropValue_changes inUse obj key value) (setPropValue_frame obj key value).1
    (setPropValue_frame obj key value).2

include inUse in
theorem deletePropValue_isolates (obj : HeapObject) (key : PropKey) :
    Isolates address ctx (ctx.deletePropValue address obj key).2 :=
  .of_frame (deletePropValue_changes inUse obj key) (deletePropValue_frame obj key).1
    (deletePropValue_frame obj key).2

include inUse in
theorem putObject_isolates (obj : HeapObject) :
    Isolates address ctx (ctx.putObject address obj) :=
  .of_frame (putObject_changes inUse obj) rfl fun _ other => Function.update_of_ne other _ _

end Frames

/-! ## The objects of a heap in order -/

/-- The object at the address lists no key twice, its side map, when it is in use,
agrees with its properties, and its elements fill the capacity. -/
structure Tidy (ctx : Context) (address : ℕ) (obj : HeapObject) : Prop where
  stored : ctx.heap address = some (.object obj)
  distinct : (obj.props.map Property.key).Nodup
  known : ∀ prop ∈ obj.props, prop.key.kind = .atom →
    prop.key.key.toNat < ctx.atoms.entries.length
  sync : propMapThreshold < obj.propCount → ∃ side, ctx.propMaps address = some side ∧
    ∀ key, side key.mapKey = obj.findProp key
  capacity : (obj.elements.getD []).length = obj.arrayCap.toNat
  fits : obj.arrayLen.toNat ≤ obj.arrayCap.toNat
  tag : obj.isArray = decide (obj.classId = arrayClass)

/-- All objects of the heap are. -/
structure Orderly (ctx : Context) : Prop where
  wellFormed : ctx.WellFormed
  tidy : ∀ address obj, ctx.heap address = some (.object obj) → ctx.Tidy address obj

namespace Tidy

variable {ctx : Context} {address : ℕ} {obj : HeapObject}

theorem isObject (tidy : ctx.Tidy address obj) :
    ctx.objectPtr (.ptr address) = some (address, obj) := by
  rw [objectPtr, tidy.stored]

theorem inUse (tidy : ctx.Tidy address obj) (wellFormed : ctx.WellFormed) :
    address < ctx.mem.offset := wellFormed.inUse tidy.stored

/-- The object is found unchanged after changes of another one. -/
theorem mono (tidy : ctx.Tidy address obj) (wellFormed : ctx.WellFormed) {after : Context}
    {place : ℕ} (isolates : Isolates place ctx after) (other : address ≠ place) :
    after.Tidy address obj := by
  have elsewhere : some place ≠ some address := fun same => other (Option.some.inj same).symm
  have inUse := tidy.inUse wellFormed
  refine ⟨?_, tidy.distinct, ?_, ?_, tidy.capacity, tidy.fits, tidy.tag⟩
  · rw [isolates.changes.cells address inUse elsewhere]
    exact tidy.stored
  · intro prop isProp isAtom
    exact (tidy.known prop isProp isAtom).trans_le isolates.entries.length_le
  · rw [isolates.changes.maps address inUse elsewhere]
    exact tidy.sync

/-- The key of a property that is found is known. -/
theorem known_of_found (tidy : ctx.Tidy address obj) {key : PropKey}
    (found : obj.findProp key ≠ none) (isAtom : key.kind = .atom) :
    key.key.toNat < ctx.atoms.entries.length := by
  obtain ⟨value, isValue⟩ := Option.ne_none_iff_exists'.mp found
  obtain ⟨prop, isFound, -⟩ := Option.map_eq_some_iff.mp isValue
  have sameKey : prop.key = key := by
    have isKey := List.find?_some isFound
    exact of_decide_eq_true isKey
  rw [← sameKey] at isAtom ⊢
  exact tidy.known prop (List.mem_of_find?_eq_some isFound) isAtom

/-- Nothing is found under a new atom. -/
theorem findProp_new (tidy : ctx.Tidy address obj) {atom : UInt32}
    (isNew : ctx.atoms.entries.length ≤ atom.toNat) : obj.findProp ⟨.atom, atom⟩ = none := by
  by_contra found
  exact absurd (tidy.known_of_found found rfl) (Nat.not_lt.mpr isNew)

theorem findPropValue_eq (tidy : ctx.Tidy address obj) (key : PropKey) :
    ctx.findPropValue address obj key = obj.findProp key :=
  Synced.findPropValue_eq tidy.sync key

end Tidy

/-- A step that isolates an object keeps the heap in order if it keeps the object. -/
theorem Orderly.step {ctx after : Context} {address : ℕ} (orderly : ctx.Orderly)
    (isolates : Isolates address ctx after) {obj' : HeapObject}
    (afterTidy : after.Tidy address obj') : after.Orderly where
  wellFormed := isolates.changes.wellFormed orderly.wellFormed
  tidy := by
    intro place obj stored
    by_cases same : place = address
    · rw [same, afterTidy.stored] at stored
      cases stored
      rw [same]
      exact afterTidy
    · have before := isolates.objects place obj same stored
      exact (orderly.tidy place obj before).mono orderly.wellFormed isolates same

/-- The two objects differ in the properties under one key at most. -/
structure Touches (key : PropKey) (obj obj' : HeapObject) : Prop where
  proto : obj'.proto = obj.proto
  isArray : obj'.isArray = obj.isArray
  arrayLen : obj'.arrayLen = obj.arrayLen
  elements : obj'.elements = obj.elements
  find : ∀ probe, probe ≠ key → obj'.findProp probe = obj.findProp probe

theorem Touches.refl (key : PropKey) (obj : HeapObject) : Touches key obj obj :=
  ⟨rfl, rfl, rfl, rfl, fun _ _ => rfl⟩

namespace Tidy

variable {ctx : Context} {address : ℕ} {obj : HeapObject}

theorem overwrite_keys (key : PropKey) (value : JSValue) (props : List Property) :
    (HeapObject.overwrite key value props).map Property.key = props.map Property.key := by
  induction props with
  | nil => rfl
  | cons prop props ih =>
      rw [HeapObject.overwrite]
      split
      · rfl
      · rw [List.map_cons, List.map_cons, ih]

/-- Setting a property keeps the object in order and touches no other property; the
property is there if it succeeds. -/
theorem setPropValue (tidy : ctx.Tidy address obj) {key : PropKey}
    (isKnown : key.kind = .atom → key.key.toNat < ctx.atoms.entries.length) (value : JSValue)
    (safely : ctx.AddsSafely address obj key) :
    ∃ obj', (ctx.setPropValue address obj key value).2.Tidy address obj' ∧
      Touches key obj obj' ∧
      ((ctx.setPropValue address obj key value).1 = true → obj'.findProp key ≠ none) := by
  rcases setPropValue_spec value tidy.sync tidy.distinct safely with
    failed | ⟨after, obj', isSet, sameAtoms, stored, sync, finds, isObject⟩
  · rw [failed]
    exact ⟨obj, tidy, .refl key obj, fun isDone => absurd isDone Bool.false_ne_true⟩
  · have others : ∀ probe, probe ≠ key → obj'.findProp probe = obj.findProp probe :=
      fun probe other => (finds probe).trans (if_neg other)
    have isFound : obj'.findProp key ≠ none := by
      rw [finds, if_pos rfl]
      exact Option.some_ne_none _
    rw [isSet]
    rcases isObject with ⟨present, rfl⟩ | ⟨absent, rfl⟩
    · refine ⟨_, ⟨stored, ?_, ?_, sync, tidy.capacity, tidy.fits, tidy.tag⟩, ⟨rfl, rfl, rfl, rfl, others⟩,
        fun _ => isFound⟩
      · dsimp only
        rw [overwrite_keys]
        exact tidy.distinct
      · intro prop isProp isAtom
        have isKey : prop.key ∈ obj.props.map Property.key := by
          rw [← overwrite_keys key value]
          exact List.mem_map_of_mem isProp
        obtain ⟨old, isOld, sameKey⟩ := List.mem_map.mp isKey
        rw [← sameKey] at isAtom ⊢
        rw [sameAtoms]
        exact tidy.known old isOld isAtom
    · refine ⟨_, ⟨stored, HeapObject.append_distinct tidy.distinct absent value, ?_, sync,
        tidy.capacity, tidy.fits, tidy.tag⟩, ⟨rfl, rfl, rfl, rfl, others⟩, fun _ => isFound⟩
      intro prop isProp isAtom
      rw [sameAtoms]
      rcases List.mem_append.mp isProp with isOld | isNew
      · exact tidy.known prop isOld isAtom
      · rw [List.mem_singleton.mp isNew] at isAtom ⊢
        exact isKnown isAtom

/-- Deleting a property does so as well. -/
theorem deletePropValue (tidy : ctx.Tidy address obj) (key : PropKey) :
    ∃ obj', (ctx.deletePropValue address obj key).2.Tidy address obj' ∧
      Touches key obj obj' := by
  obtain ⟨after, obj', isDeleted, sameAtoms, stored, sync, finds, isObject⟩ :=
    deletePropValue_spec tidy.sync tidy.distinct key
  rw [isDeleted]
  rcases isObject with ⟨-, rfl⟩ | ⟨-, rfl⟩
  · refine ⟨_, ⟨stored tidy.stored, ?_, ?_, sync, tidy.capacity, tidy.fits, tidy.tag⟩, rfl, rfl, rfl, rfl,
      fun probe other => (finds probe).trans (if_neg other)⟩
    · exact List.Nodup.sublist (List.Sublist.map _ List.eraseP_sublist) tidy.distinct
    · intro prop isProp isAtom
      rw [sameAtoms]
      exact tidy.known prop (List.mem_of_mem_eraseP isProp) isAtom
  · refine ⟨_, ⟨stored tidy.stored, tidy.distinct, ?_, sync, tidy.capacity, tidy.fits, tidy.tag⟩,
      .refl key _⟩
    rw [sameAtoms]
    exact tidy.known

/-! ### Arrays -/

/-- The object with other elements, put back. -/
theorem withElements (tidy : ctx.Tidy address obj) {after : Context}
    (sameAtoms : after.atoms = ctx.atoms) (sameMaps : after.propMaps = ctx.propMaps)
    {elements : Option (List JSValue)} {arrayLen arrayCap : UInt32}
    (capacity : (elements.getD []).length = arrayCap.toNat)
    (fits : arrayLen.toNat ≤ arrayCap.toNat) :
    (after.putObject address
      { obj with elements := elements, arrayLen := arrayLen, arrayCap := arrayCap }).Tidy address
      { obj with elements := elements, arrayLen := arrayLen, arrayCap := arrayCap } where
  stored := Function.update_self _ _ _
  tag := tidy.tag
  distinct := tidy.distinct
  known := by
    intro prop isProp isAtom
    change prop.key.key.toNat < after.atoms.entries.length
    rw [sameAtoms]
    exact tidy.known prop isProp isAtom
  sync := by
    change propMapThreshold < obj.propCount → ∃ side, after.propMaps address = some side ∧ _
    rw [sameMaps]
    exact tidy.sync
  capacity := capacity
  fits := fits

/-- Where memory is found, the grown array has the old elements. -/
theorem arrayGrow (tidy : ctx.Tidy address obj) (memory : ctx.mem.size < 2 ^ 35) {needed : ℕ}
    {grown : HeapObject} {after : Context}
    (isGrown : ctx.arrayGrow obj needed = some (grown, after)) :
    after.atoms = ctx.atoms ∧ after.propMaps = ctx.propMaps ∧ after.heap = ctx.heap ∧
      ∃ elements arrayCap,
        grown = { obj with elements := some elements, arrayCap := arrayCap } ∧
        elements.length = arrayCap.toNat ∧ needed ≤ arrayCap.toNat ∧
        obj.arrayCap.toNat ≤ arrayCap.toNat ∧
        ∀ j < obj.arrayLen.toNat, elements[j]? = (obj.elements.getD [])[j]? := by
  unfold Context.arrayGrow at isGrown
  dsimp only at isGrown
  generalize isCap : max (if obj.arrayCap.toNat = 0 then 4 else obj.arrayCap.toNat * 2) needed =
    newCap at isGrown
  obtain ⟨⟨place, mem⟩, isAlloc, isAfter⟩ := Option.map_eq_some_iff.mp isGrown
  cases isAfter
  have fitsMemory : newCap * 8 ≤ ctx.mem.size := by
    unfold MemoryRegion.alloc at isAlloc
    dsimp only at isAlloc
    split at isAlloc
    · cases isAlloc
    · omega
  have isNat : (UInt32.ofNat newCap).toNat = newCap :=
    UInt32.toNat_ofNat_of_lt' (show newCap < 2 ^ 32 by omega)
  have isMore : obj.arrayCap.toNat ≤ newCap := by
    rw [← isCap]
    split <;> omega
  have fits := tidy.fits
  have capacity := tidy.capacity
  have kept : ((obj.elements.getD []).take obj.arrayLen.toNat).length = obj.arrayLen.toNat := by
    rw [List.length_take]
    omega
  refine ⟨rfl, rfl, rfl, _, _, rfl, ?_, ?_, ?_, ?_⟩
  · rw [List.length_append, List.length_replicate, kept, isNat]
    omega
  · rw [isNat, ← isCap]
    exact le_max_right _ _
  · rw [isNat]
    exact isMore
  · intro j below
    rw [List.getElem?_append_left (by rw [kept]; exact below), List.getElem?_take_of_lt below]

/-- An array that has the capacity, or that is grown to it. -/
theorem ready (tidy : ctx.Tidy address obj) (memory : ctx.mem.size < 2 ^ 35) {newLen : ℕ}
    (positive : 0 < newLen) {grown : HeapObject} {after : Context}
    (isReady : (if obj.arrayCap.toNat < newLen then ctx.arrayGrow obj newLen
      else some (obj, ctx)) = some (grown, after)) :
    after.atoms = ctx.atoms ∧ after.propMaps = ctx.propMaps ∧ after.heap = ctx.heap ∧
      ∃ elements arrayCap,
        grown = { obj with elements := some elements, arrayCap := arrayCap } ∧
        elements.length = arrayCap.toNat ∧ newLen ≤ arrayCap.toNat ∧
        obj.arrayCap.toNat ≤ arrayCap.toNat ∧
        ∀ j < obj.arrayLen.toNat, elements[j]? = (obj.elements.getD [])[j]? := by
  split at isReady
  · exact tidy.arrayGrow memory isReady
  · rename_i enough
    cases isReady
    have capacity := tidy.capacity
    cases isElements : obj.elements with
    | none =>
        rw [isElements] at capacity
        change 0 = _ at capacity
        omega
    | some elements =>
        rw [isElements] at capacity
        refine ⟨rfl, rfl, rfl, elements, obj.arrayCap, ?_, capacity, Nat.not_lt.mp enough,
          Nat.le_refl _, fun j _ => rfl⟩
        rw [← isElements]

/-- A part of a list is overwritten. -/
theorem length_filled {elements : List JSValue} {low high : ℕ} (ordered : low ≤ high)
    (inside : high ≤ elements.length) (value : JSValue) :
    (elements.take low ++ List.replicate (high - low) value ++ elements.drop high).length =
      elements.length := by
  rw [List.length_append, List.length_append, List.length_take, List.length_replicate,
    List.length_drop]
  omega

theorem getElem?_filled {elements : List JSValue} {low high : ℕ} (ordered : low ≤ high)
    (inside : high ≤ elements.length) (value : JSValue) {j : ℕ} (below : j < high) :
    (elements.take low ++ List.replicate (high - low) value ++ elements.drop high)[j]? =
      if j < low then elements[j]? else some value := by
  have isLow : (elements.take low).length = low := by
    rw [List.length_take]
    omega
  rw [List.getElem?_append_left (by
    rw [List.length_append, isLow, List.length_replicate]
    omega)]
  split
  · rename_i early
    rw [List.getElem?_append_left (by rw [isLow]; exact early), List.getElem?_take_of_lt early]
  · rename_i late
    rw [List.getElem?_append_right (by rw [isLow]; omega), isLow,
      List.getElem?_replicate_of_lt (by omega)]

/-- The elements that an array gives. -/
theorem arrayGet_eq (obj : HeapObject) {idx : UInt32} (below : idx < obj.arrayLen) :
    arrayGet obj idx = (obj.elements.getD [])[idx.toNat]?.getD .undefined := by
  rw [arrayGet, if_neg (UInt32.not_le.mpr below)]
  cases obj.elements with
  | none => rfl
  | some elements => rfl

end Tidy

/-- The array gets an element: the others stay, and those between the old length and
it are made. -/
structure Fills (idx : UInt32) (obj obj' : HeapObject) : Prop where
  proto : obj'.proto = obj.proto
  isArray : obj'.isArray = obj.isArray
  props : obj'.props = obj.props
  arrayLen : obj'.arrayLen.toNat = max obj.arrayLen.toNat (idx.toNat + 1)
  others : ∀ j, j < obj.arrayLen → j ≠ idx → arrayGet obj' j = arrayGet obj j
  between : ∀ j, obj.arrayLen ≤ j → j < idx → arrayGet obj' j = .undefined

namespace Tidy

variable {ctx : Context} {address : ℕ} {obj : HeapObject}

/-- Setting an element keeps the array in order, or changes nothing. -/
theorem arraySet (tidy : ctx.Tidy address obj) (memory : ctx.mem.size < 2 ^ 35) (idx : UInt32)
    (value : JSValue) :
    (ctx.arraySet address obj idx value = (false, ctx)) ∨
      (ctx.arraySet address obj idx value).1 = true ∧
        (ctx.arraySet address obj idx value).2.atoms = ctx.atoms ∧
        (∀ place, place ≠ address →
          (ctx.arraySet address obj idx value).2.heap place = ctx.heap place) ∧
        ∃ obj', (ctx.arraySet address obj idx value).2.Tidy address obj' ∧ Fills idx obj obj' := by
  unfold Context.arraySet
  by_cases below : idx < obj.arrayLen
  · have belowNat : idx.toNat < obj.arrayLen.toNat := below
    rw [if_pos below]
    cases isElements : obj.elements with
    | none => exact .inl rfl
    | some elements =>
        refine .inr ⟨rfl, rfl, fun place other => Function.update_of_ne other _ _, _,
          tidy.withElements rfl rfl ?_ tidy.fits, rfl, rfl, rfl, ?_, ?_, ?_⟩
        · have capacity := tidy.capacity
          rw [isElements] at capacity
          exact (List.length_set ..).trans capacity
        · change obj.arrayLen.toNat = _
          omega
        · intro j inside other
          have otherNat : idx.toNat ≠ j.toNat := fun same =>
            other (UInt32.toNat_inj.mp same.symm)
          rw [arrayGet_eq obj inside, isElements]
          refine (arrayGet_eq _ (by exact inside)).trans ?_
          change (elements.set idx.toNat value)[j.toNat]?.getD _ = elements[j.toNat]?.getD _
          rw [List.getElem?_set_ne otherNat]
        · intro j outside before
          have outsideNat : obj.arrayLen.toNat ≤ j.toNat := outside
          have beforeNat : j.toNat < idx.toNat := before
          omega
  · have notBelow : obj.arrayLen.toNat ≤ idx.toNat := UInt32.not_lt.mp below
    rw [if_neg below]
    dsimp only
    cases isReady : (if obj.arrayCap.toNat < idx.toNat + 1 then
      ctx.arrayGrow obj (idx.toNat + 1) else some (obj, ctx)) with
    | none => exact .inl rfl
    | some outcome =>
        obtain ⟨grown, after⟩ := outcome
        obtain ⟨sameAtoms, sameMaps, sameHeap, elements, arrayCap, rfl, isLength, isEnough, isMore,
          old⟩ := tidy.ready memory (Nat.succ_pos _) isReady
        have inside : idx.toNat ≤ elements.length := by omega
        have isNext : (UInt32.ofNat (idx.toNat + 1)).toNat = idx.toNat + 1 :=
          UInt32.toNat_ofNat_of_lt' (show _ < 2 ^ 32 from isEnough.trans_lt arrayCap.toNat_lt)
        refine .inr ⟨rfl, sameAtoms, fun place other =>
            (Function.update_of_ne other _ _).trans (congrFun sameHeap place), _,
          tidy.withElements sameAtoms sameMaps ?_ ?_, rfl, rfl, rfl, ?_, ?_, ?_⟩
        · change (List.set _ _ _).length = _
          rw [List.length_set, length_filled notBelow inside]
          exact isLength
        · rw [isNext]
          exact isEnough
        · change (UInt32.ofNat (idx.toNat + 1)).toNat = _
          rw [isNext]
          omega
        · intro j isOld other
          have isOldNat : j.toNat < obj.arrayLen.toNat := isOld
          have isInside : j < UInt32.ofNat (idx.toNat + 1) := by
            rw [UInt32.lt_iff_toNat_lt, isNext]
            omega
          rw [arrayGet_eq _ isInside, arrayGet_eq obj isOld]
          change (List.set _ idx.toNat value)[j.toNat]?.getD _ = _
          rw [List.getElem?_set_ne (by omega), getElem?_filled notBelow inside _ (by omega),
            if_pos isOldNat, old j.toNat isOldNat]
        · intro j outside before
          have outsideNat : obj.arrayLen.toNat ≤ j.toNat := outside
          have beforeNat : j.toNat < idx.toNat := before
          have isInside : j < UInt32.ofNat (idx.toNat + 1) := by
            rw [UInt32.lt_iff_toNat_lt, isNext]
            omega
          rw [arrayGet_eq _ isInside]
          change (List.set _ idx.toNat value)[j.toNat]?.getD _ = _
          rw [List.getElem?_set_ne (by omega), getElem?_filled notBelow inside _ beforeNat,
            if_neg (by omega)]
          rfl

/-- Setting the length keeps the array in order. -/
theorem arraySetLength (tidy : ctx.Tidy address obj) (memory : ctx.mem.size < 2 ^ 35)
    (value : JSValue) :
    (ctx.arraySetLength address obj value).2.atoms = ctx.atoms ∧
      (∀ place, place ≠ address →
        (ctx.arraySetLength address obj value).2.heap place = ctx.heap place) ∧
      ∃ obj', (ctx.arraySetLength address obj value).2.Tidy address obj' := by
  have same : ctx.atoms = ctx.atoms ∧ (∀ place, place ≠ address → ctx.heap place = ctx.heap place) ∧
      ∃ obj', ctx.Tidy address obj' := ⟨rfl, fun _ _ => rfl, obj, tidy⟩
  have fits := tidy.fits
  unfold Context.arraySetLength
  cases value with
  | int number =>
      dsimp only
      split
      · exact same
      · generalize number.toInt.toNat = newLen
        cases isReady : (if obj.arrayLen.toNat < newLen ∧ obj.arrayCap.toNat < newLen then
          ctx.arrayGrow obj newLen else some (obj, ctx)) with
        | none => exact same
        | some outcome =>
            obtain ⟨grown, after⟩ := outcome
            have spec : after.atoms = ctx.atoms ∧ after.propMaps = ctx.propMaps ∧
                after.heap = ctx.heap ∧ ∃ elements arrayCap,
                  grown = { obj with elements := elements, arrayCap := arrayCap } ∧
                  (elements.getD []).length = arrayCap.toNat ∧
                  max obj.arrayLen.toNat newLen ≤ arrayCap.toNat := by
              split at isReady
              · obtain ⟨sameAtoms, sameMaps, sameHeap, elements, arrayCap, isGrown, isLength,
                  isEnough, isMore, -⟩ := tidy.arrayGrow memory isReady
                exact ⟨sameAtoms, sameMaps, sameHeap, some elements, arrayCap, isGrown, isLength,
                  max_le (fits.trans isMore) isEnough⟩
              · rename_i enough
                cases isReady
                refine ⟨rfl, rfl, rfl, obj.elements, obj.arrayCap, rfl, tidy.capacity, ?_⟩
                omega
            obtain ⟨sameAtoms, sameMaps, sameHeap, elements, arrayCap, rfl, isLength, isEnough⟩ :=
              spec
            have isNat : (UInt32.ofNat newLen).toNat = newLen :=
              UInt32.toNat_ofNat_of_lt' (show newLen < 2 ^ 32 by
                have bound := arrayCap.toNat_lt
                omega)
            refine ⟨sameAtoms, fun place other =>
                (Function.update_of_ne other _ _).trans (congrFun sameHeap place), _,
              tidy.withElements sameAtoms sameMaps ?_ ?_⟩
            · cases elements with
              | none => exact isLength
              | some elements =>
                  refine (length_filled ?_ ?_ _).trans isLength
                  · omega
                  · change elements.length = _ at isLength
                    omega
            · rw [isNat]
              exact (le_max_right _ _).trans isEnough
  | bool | null | undefined | exception | ptr => exact same

end Tidy

/-- An array with one element undefined. -/
def cleared (obj : HeapObject) (idx : UInt32) : HeapObject :=
  { obj with
    elements := obj.elements.map fun elements => elements.set idx.toNat .undefined }

/-- Deleting an element of an array makes it undefined. -/
theorem Tidy.deleteElement {ctx : Context} {address : ℕ} {obj : HeapObject}
    (tidy : ctx.Tidy address obj) {idx : UInt32} (below : idx < obj.arrayLen) :
    (ctx.putObject address (cleared obj idx)).Tidy address (cleared obj idx) ∧
      Fills idx obj (cleared obj idx) := by
  have belowNat : idx.toNat < obj.arrayLen.toNat := below
  refine ⟨tidy.withElements rfl rfl ?_ tidy.fits, rfl, rfl, rfl, ?_, ?_, ?_⟩
  · have capacity := tidy.capacity
    cases isElements : obj.elements with
    | none =>
        rw [isElements] at capacity
        exact capacity
    | some elements =>
        rw [isElements] at capacity
        exact (List.length_set ..).trans capacity
  · change obj.arrayLen.toNat = _
    omega
  · intro j inside other
    have otherNat : idx.toNat ≠ j.toNat := fun same => other (UInt32.toNat_inj.mp same.symm)
    rw [Tidy.arrayGet_eq obj inside]
    refine (Tidy.arrayGet_eq _ (by exact inside)).trans ?_
    unfold cleared
    cases obj.elements with
    | none => rfl
    | some elements =>
        change (elements.set idx.toNat .undefined)[j.toNat]?.getD _ = elements[j.toNat]?.getD _
        rw [List.getElem?_set_ne otherNat]
  · intro j outside before
    have outsideNat : obj.arrayLen.toNat ≤ j.toNat := outside
    have beforeNat : j.toNat < idx.toNat := before
    omega

/-! ## Steps keep the heap in order -/

/-- Changes at no object keep the heap in order. -/
theorem Orderly.quiet {ctx after : Context} (orderly : ctx.Orderly)
    (isolates : ∀ address, Isolates address ctx after) : after.Orderly where
  wellFormed := (isolates 0).changes.wellFormed orderly.wellFormed
  tidy := by
    intro place obj stored
    have other : place ≠ place + 1 := Nat.ne_of_lt (Nat.lt_succ_self place)
    have before := (isolates (place + 1)).objects place obj other stored
    exact (orderly.tidy place obj before).mono orderly.wellFormed (isolates (place + 1)) other

/-- A name that is interned is known. -/
theorem keyOf_known {ctx : Context} (wellFormed : ctx.WellFormed)
    (room : ctx.atoms.entries.length < 2 ^ 32) (name : Bytes) :
    (∀ address, Isolates address ctx (ctx.keyOf name).2) ∧
      ∀ key, (ctx.keyOf name).1 = some key → key.kind = .atom →
        key.key.toNat < (ctx.keyOf name).2.atoms.entries.length := by
  unfold keyOf
  cases parseIndex name with
  | some idx =>
      refine ⟨fun address => .refl address ctx, ?_⟩
      intro key isKey isAtom
      cases isKey
      cases isAtom
  | none =>
      refine ⟨fun address => internString_isolates wellFormed room address name, ?_⟩
      intro key isKey _
      obtain ⟨atom, isAtom, rfl⟩ := Option.map_eq_some_iff.mp isKey
      have isText := (internString_spec wellFormed room name).2.1 atom isAtom
      rw [atomBytes_eq_some_iff] at isText
      exact (List.getElem?_eq_some_iff.mp isText).1

/-- The key under which the texts of the context keep a name. -/
def IsKey (ctx : Context) (name : Bytes) (key : PropKey) : Prop :=
  match parseIndex name with
  | some idx => key = ⟨.index, idx⟩
  | none => ∃ atom, key = ⟨.atom, atom⟩ ∧ ctx.atomBytes atom = some name

theorem keyOf_isKey {ctx : Context} (wellFormed : ctx.WellFormed)
    (room : ctx.atoms.entries.length < 2 ^ 32) {name : Bytes} {key : PropKey}
    (isKey : (ctx.keyOf name).1 = some key) : (ctx.keyOf name).2.IsKey name key := by
  unfold keyOf at isKey ⊢
  unfold IsKey
  cases isIndex : parseIndex name with
  | some idx =>
      rw [isIndex] at isKey
      cases isKey
      rfl
  | none =>
      rw [isIndex] at isKey
      obtain ⟨atom, isAtom, rfl⟩ := Option.map_eq_some_iff.mp isKey
      exact ⟨atom, rfl, (internString_spec wellFormed room name).2.1 atom isAtom⟩

theorem IsKey.mono {ctx after : Context} {name : Bytes} {key : PropKey}
    (isKey : ctx.IsKey name key) (sameAtoms : after.atoms = ctx.atoms) : after.IsKey name key := by
  unfold IsKey atomBytes at isKey ⊢
  rw [sameAtoms]
  exact isKey

/-- What a step leaves of the object that it acts on: it touches one property, sets
an element, or keeps everything. -/
inductive Leaves (after : Context) (name : Bytes) (obj obj' : HeapObject) (isThere : Prop) : Prop
  | touched {key : PropKey} (isKey : after.IsKey name key) (touches : Touches key obj obj')
      (found : isThere → obj'.findProp key ≠ none)
      (noElement : isThere → obj.isArray = true → parseIndex name = none)
  | filled {idx : UInt32} (isIndex : parseIndex name = some idx) (isArray : obj.isArray = true)
      (fills : Fills idx obj obj') (isSet : isThere ∨ idx < obj.arrayLen)
  | kept (same : obj' = obj) (absent : ¬isThere)

/-- The step isolates the object and leaves it in order. -/
def Steps (ctx : Context) (address : ℕ) (obj : HeapObject) (name : Bytes) (isThere : Prop)
    (after : Context) : Prop :=
  Isolates address ctx after ∧
    ∃ obj', after.Tidy address obj' ∧ after.Leaves name obj obj' isThere

section Steps

variable {ctx : Context} (orderly : ctx.Orderly) (small : ctx.Small) {address : ℕ}
  {obj : HeapObject} (tidy : ctx.Tidy address obj)

include orderly small tidy

/-- Making the key of a name leaves an object in order. -/
theorem tidy_keyOf (name : Bytes) :
    (∀ other, Isolates other ctx (ctx.keyOf name).2) ∧ (ctx.keyOf name).2.WellFormed ∧
      (ctx.keyOf name).2.Tidy address obj := by
  obtain ⟨interned, -⟩ := keyOf_known orderly.wellFormed small.atoms name
  exact ⟨interned, (interned address).changes.wellFormed orderly.wellFormed,
    tidy.mono orderly.wellFormed (interned (address + 1)) (Nat.ne_of_lt (Nat.lt_succ_self _))⟩

/-- A property set under the key of a name. -/
theorem steps_setKey (name : Bytes) (value : JSValue) (safely : ctx.SafeName address obj name)
    (noElement : obj.isArray = true → parseIndex name = none) {outcome : Bool × Context}
    (isOutcome : outcome = match (ctx.keyOf name).1 with
      | none => (false, (ctx.keyOf name).2)
      | some key => (ctx.keyOf name).2.setPropValue address obj key value) :
    ctx.Steps address obj name (outcome.1 = true) outcome.2 := by
  obtain ⟨interned, wellFormed, keyTidy⟩ := tidy_keyOf orderly small tidy name
  cases isKey : (ctx.keyOf name).1 with
  | none =>
      rw [isKey] at isOutcome
      rw [isOutcome]
      exact ⟨interned address, obj, keyTidy, .kept rfl Bool.false_ne_true⟩
  | some key =>
      rw [isKey] at isOutcome
      have isName := keyOf_isKey orderly.wellFormed small.atoms isKey
      obtain ⟨obj', afterTidy, touches, found⟩ :=
        keyTidy.setPropValue ((keyOf_known orderly.wellFormed small.atoms name).2 key isKey) value (safely key isKey)
      have isolates := setPropValue_isolates (keyTidy.inUse wellFormed) obj key value
      have sameAtoms := (@setPropValue_frame (ctx.keyOf name).2 address obj key value).1
      rw [isOutcome]
      exact ⟨(interned address).trans isolates, obj', afterTidy, .touched (isName.mono sameAtoms)
        touches found fun _ => noElement⟩

/-- The same for a property that is deleted. -/
theorem steps_deleteKey (name : Bytes) {outcome : Bool × Context}
    (isOutcome : outcome = match (ctx.keyOf name).1 with
      | none => (false, (ctx.keyOf name).2)
      | some key => (ctx.keyOf name).2.deletePropValue address obj key) :
    ctx.Steps address obj name False outcome.2 := by
  obtain ⟨interned, wellFormed, keyTidy⟩ := tidy_keyOf orderly small tidy name
  cases isKey : (ctx.keyOf name).1 with
  | none =>
      rw [isKey] at isOutcome
      rw [isOutcome]
      exact ⟨interned address, obj, keyTidy, .kept rfl id⟩
  | some key =>
      rw [isKey] at isOutcome
      have isName := keyOf_isKey orderly.wellFormed small.atoms isKey
      obtain ⟨obj', afterTidy, touches⟩ := keyTidy.deletePropValue key
      have isolates := deletePropValue_isolates (keyTidy.inUse wellFormed) obj key
      have sameAtoms := (@deletePropValue_frame (ctx.keyOf name).2 address obj key).1
      rw [isOutcome]
      exact ⟨(interned address).trans isolates, obj', afterTidy, .touched (isName.mono sameAtoms)
        touches nofun nofun⟩

/-- An element set. -/
theorem steps_arraySet {name : Bytes} {idx : UInt32} (isIndex : parseIndex name = some idx)
    (isArray : obj.isArray = true) (value : JSValue) :
    ctx.Steps address obj name ((ctx.arraySet address obj idx value).1 = true)
      (ctx.arraySet address obj idx value).2 := by
  rcases tidy.arraySet small.memory idx value with
    fails | ⟨isDone, sameAtoms, elsewhere, obj', afterTidy, fills⟩
  · rw [fails]
    exact ⟨.refl address ctx, obj, tidy, .kept rfl Bool.false_ne_true⟩
  · exact ⟨.of_frame (arraySet_changes (tidy.inUse orderly.wellFormed) obj idx value) sameAtoms
      elsewhere, obj', afterTidy, .filled isIndex isArray fills (.inl isDone)⟩

/-- `set_property_index` is a step under the digits of the index. -/
theorem steps_setIndex (idx : UInt32) (value : JSValue)
    (safe : PropertyOp.Safe (.setIndex idx value) (.ptr address) ctx) :
    ctx.Steps address obj (natBytes idx.toNat)
      ((ctx.setPropertyIndex (.ptr address) idx value).1 = true)
      (ctx.setPropertyIndex (.ptr address) idx value).2 := by
  have isIndex := parseIndex_natBytes idx
  cases isArray : obj.isArray with
  | true =>
      rw [setPropertyIndex_of_array tidy.isObject isArray]
      exact steps_arraySet orderly small tidy isIndex isArray value
  | false =>
      have isKey : ctx.keyOf (natBytes idx.toNat) = (some ⟨.index, idx⟩, ctx) := by
        rw [keyOf, isIndex]
      refine steps_setKey orderly small tidy _ value ?_ ?_ ?_
      · intro key named
        rw [isKey] at named ⊢
        cases named
        exact safe address obj tidy.isObject isArray
      · rw [isArray]
        exact fun isTrue => absurd isTrue Bool.false_ne_true
      · rw [setPropertyIndex_eq tidy.isObject isArray, isKey]

/-- `set_property_str` is a step, but for the length of an array. -/
theorem steps_setStr (name : Bytes) (value : JSValue)
    (safe : PropertyOp.Safe (.setStr name value) (.ptr address) ctx)
    (notLength : obj.isArray = true → name ≠ asBytes "length") :
    ctx.Steps address obj name ((ctx.setPropertyStr (.ptr address) name value).1 = true)
      (ctx.setPropertyStr (.ptr address) name value).2 := by
  have safely := safe address obj tidy.isObject
  by_cases element : obj.isArray = true ∧ (parseIndex name).isSome = true
  · obtain ⟨isArray, hasIndex⟩ := element
    obtain ⟨idx, isIndex⟩ := Option.isSome_iff_exists.mp hasIndex
    have isSet : ctx.setPropertyStr (.ptr address) name value =
        ctx.arraySet address obj idx value := by
      rw [setPropertyStr, tidy.isObject]
      dsimp only
      rw [isIndex]
      exact setPropertyIndex_of_array tidy.isObject isArray idx value
    rw [isSet]
    exact steps_arraySet orderly small tidy isIndex isArray value
  · have noElement : obj.isArray = true → parseIndex name = none := fun isArray =>
      Option.not_isSome_iff_eq_none.mp fun hasIndex => element ⟨isArray, hasIndex⟩
    exact steps_setKey orderly small tidy name value (safely noElement) noElement
      (setPropertyStr_eq tidy.isObject
        (fun isArray => ⟨noElement isArray, notLength isArray⟩) value)

/-- `delete_property_index` is a step under the digits of the index. -/
theorem steps_deleteIndex {name : Bytes} {idx : UInt32} (isIndex : parseIndex name = some idx) :
    ctx.Steps address obj name False (ctx.deletePropertyIndex (.ptr address) idx).2 := by
  by_cases inside : obj.isArray = true ∧ idx < obj.arrayLen
  · have isDelete : (ctx.deletePropertyIndex (.ptr address) idx).2 =
        ctx.putObject address (cleared obj idx) := by
      rw [deletePropertyIndex, tidy.isObject]
      dsimp only
      rw [if_pos inside]
      rfl
    obtain ⟨afterTidy, fills⟩ := tidy.deleteElement inside.2
    rw [isDelete]
    exact ⟨putObject_isolates (tidy.inUse orderly.wellFormed) _, _, afterTidy,
      .filled isIndex inside.1 fills (.inr inside.2)⟩
  · refine steps_deleteKey orderly small tidy name ?_
    rw [deletePropertyIndex_eq tidy.isObject inside, keyOf, isIndex]

/-- `delete_property_str` is a step. -/
theorem steps_deleteStr (name : Bytes) :
    ctx.Steps address obj name False (ctx.deletePropertyStr (.ptr address) name).2 := by
  cases isIndex : parseIndex name with
  | some idx =>
      have isDelete : ctx.deletePropertyStr (.ptr address) name =
          ctx.deletePropertyIndex (.ptr address) idx := by
        rw [deletePropertyStr, tidy.isObject]
        dsimp only
        rw [isIndex]
      rw [isDelete]
      exact steps_deleteIndex orderly small tidy isIndex
  | none =>
      refine steps_deleteKey orderly small tidy name ?_
      rw [deletePropertyStr, tidy.isObject, keyOf, isIndex]
      dsimp only
      obtain ⟨found, after⟩ := ctx.internString name
      cases found <;> rfl

end Steps

/-- A step keeps the heap in order. -/
theorem Steps.orderly {ctx after : Context} (orderly : ctx.Orderly) {address : ℕ}
    {obj : HeapObject} {name : Bytes} {isThere : Prop}
    (steps : ctx.Steps address obj name isThere after) : after.Orderly := by
  obtain ⟨isolates, obj', afterTidy, -⟩ := steps
  exact orderly.step isolates afterTidy

/-- Reading a name makes its atom at most. -/
theorem getPropertyStr_isolates {ctx : Context} (orderly : ctx.Orderly) (small : ctx.Small)
    (val : JSValue) (name : Bytes) (address : ℕ) :
    Isolates address ctx (ctx.getPropertyStr val name).2 := by
  unfold getPropertyStr
  split
  · exact .refl address ctx
  · split
    · exact .refl address ctx
    · have interned := internString_isolates orderly.wellFormed small.atoms address name
      split <;> (rename_i isInterned; rw [isInterned] at interned; exact interned)

theorem hasPropertyStr_isolates {ctx : Context} (orderly : ctx.Orderly) (small : ctx.Small)
    (val : JSValue) (name : Bytes) (address : ℕ) :
    Isolates address ctx (ctx.hasPropertyStr val name).2 := by
  unfold hasPropertyStr
  split
  · exact .refl address ctx
  · split
    · exact .refl address ctx
    · have interned := internString_isolates orderly.wellFormed small.atoms address name
      split <;> (rename_i isInterned; rw [isInterned] at interned; exact interned)

/-- A new cell that is no object. -/
theorem allocCell_isolates {ctx after : Context} {size place : ℕ} {cell : Cell}
    (nonempty : 0 < size) (noObject : ∀ obj, cell ≠ .object obj)
    (allocated : ctx.allocCell size cell = some (place, after)) (address : ℕ) :
    Isolates address ctx after := by
  obtain ⟨changes, -, -, stored, -, sameAtoms⟩ := allocCell_changes nonempty allocated
  refine ⟨changes.anywhere _, fun other obj _ isObject => ?_, by rw [sameAtoms]⟩
  by_cases isNew : other = place
  · rw [isNew, stored, Option.some.injEq] at isObject
    exact absurd isObject (noObject obj)
  · unfold allocCell at allocated
    obtain ⟨⟨new, mem⟩, -, isAfter⟩ := Option.map_eq_some_iff.mp allocated
    cases isAfter
    change Function.update ctx.heap place _ other = _ at isObject
    rw [Function.update_of_ne isNew] at isObject
    exact isObject

/-- A new object is in order. -/
theorem Orderly.newObject {ctx : Context} (orderly : ctx.Orderly) {classId : UInt32}
    {val : JSValue} {after : Context} (created : ctx.newObject classId = some (val, after)) :
    after.Orderly := by
  unfold Context.newObject at created
  obtain ⟨⟨address, allocated⟩, isAlloc, isAfter⟩ := Option.map_eq_some_iff.mp created
  cases isAfter
  obtain ⟨changes, -, -, stored, -, sameAtoms⟩ := allocCell_changes (by decide) isAlloc
  have isolates : Isolates address ctx after := by
    refine .of_frame (changes.anywhere _) sameAtoms fun other isOther => ?_
    unfold allocCell at isAlloc
    obtain ⟨⟨new, mem⟩, -, isAfter⟩ := Option.map_eq_some_iff.mp isAlloc
    cases isAfter
    exact Function.update_of_ne isOther _ _
  exact orderly.step isolates ⟨stored, List.nodup_nil, nofun,
    fun large => absurd large (Nat.not_lt_zero _), rfl, Nat.le_refl _, rfl⟩

/-- An operation that keeps the side maps right keeps the heap in order. -/
theorem Orderly.op {ctx : Context} (orderly : ctx.Orderly) (small : ctx.Small) (val : JSValue)
    {op : PropertyOp} (safe : op.Safe val ctx) : (op.run val ctx).2.Orderly := by
  cases isObject : ctx.objectPtr val with
  | none =>
      cases op with
      | setStr | setAtomId | setIndex | deleteStr | deleteIndex =>
          -- nothing is written where there is no object
          simp only [PropertyOp.run, setPropertyStr, setPropertyAtomId, setPropertyIndex,
            deletePropertyStr, deletePropertyIndex, isObject]
          exact orderly
      | getStr name => exact orderly.quiet (getPropertyStr_isolates orderly small val name)
      | hasStr name => exact orderly.quiet (hasPropertyStr_isolates orderly small val name)
      | getAtomId | getIndex | keys => exact orderly
  | some found =>
      obtain ⟨address, obj⟩ := found
      obtain ⟨rfl, stored⟩ := objectPtr_eq_some isObject
      have tidy := orderly.tidy address obj stored
      cases op with
      | setStr name value =>
          by_cases isLength : obj.isArray = true ∧ name = asBytes "length"
          · obtain ⟨isArray, rfl⟩ := isLength
            have isSet : ctx.setPropertyStr (.ptr address) (asBytes "length") value =
                ctx.arraySetLength address obj value := by
              have notIndex : parseIndex (asBytes "length") = none := by decide
              rw [setPropertyStr, isObject]
              dsimp only
              rw [notIndex]
              exact if_pos ⟨isArray, rfl⟩
            obtain ⟨sameAtoms, elsewhere, obj', afterTidy⟩ :=
              tidy.arraySetLength small.memory value
            rw [PropertyOp.run]
            dsimp only
            rw [isSet]
            exact orderly.step (.of_frame
              (arraySetLength_changes (tidy.inUse orderly.wellFormed) obj value) sameAtoms
              elsewhere) afterTidy
          · exact (steps_setStr orderly small tidy name value safe
              fun isArray isName => isLength ⟨isArray, isName⟩).orderly orderly
      | setAtomId atom value =>
          obtain ⟨isKnown, safely⟩ := safe address obj isObject
          obtain ⟨obj', afterTidy, -⟩ :=
            tidy.setPropValue (by exact fun _ => isKnown) value safely
          have isSet := setPropertyAtomId_eq isObject atom value
          rw [PropertyOp.run]
          dsimp only
          rw [isSet]
          exact orderly.step
            (setPropValue_isolates (tidy.inUse orderly.wellFormed) obj _ value) afterTidy
      | setIndex idx value => exact (steps_setIndex orderly small tidy idx value safe).orderly orderly
      | getStr name => exact orderly.quiet (getPropertyStr_isolates orderly small _ name)
      | hasStr name => exact orderly.quiet (hasPropertyStr_isolates orderly small _ name)
      | getAtomId | getIndex | keys => exact orderly
      | deleteStr name => exact (steps_deleteStr orderly small tidy name).orderly orderly
      | deleteIndex idx =>
          exact (steps_deleteIndex orderly small tidy (parseIndex_natBytes idx)).orderly orderly

/-- An action that keeps the side maps right keeps the heap in order. -/
theorem Orderly.act {ctx : Context} (orderly : ctx.Orderly) (small : ctx.Small) {action : Action}
    (safe : action.Safe ctx) : (action.run ctx).2.Orderly := by
  cases action with
  | on val op => exact orderly.op small val safe
  | newObject classId =>
      rw [Action.run]
      cases created : ctx.newObject classId with
      | none => exact orderly
      | some outcome => exact orderly.newObject created
  | newString bytes =>
      rw [Action.run]
      cases allocated : ctx.allocString bytes with
      | none => exact orderly
      | some outcome =>
          exact orderly.quiet (allocCell_isolates (by omega) (by nofun) allocated)
  | newFloat value =>
      rw [Action.run]
      cases allocated : ctx.allocFloat value with
      | none => exact orderly
      | some outcome =>
          exact orderly.quiet (allocCell_isolates (by decide) (by nofun) allocated)
  | intern bytes =>
      exact orderly.quiet fun address =>
        internString_isolates orderly.wellFormed small.atoms address bytes
  | setObjectProto val proto =>
      change (ctx.setObjectProto val proto).2.Orderly
      unfold setObjectProto
      cases isObject : ctx.objectPtr val with
      | none => exact orderly
      | some found =>
          obtain ⟨address, obj⟩ := found
          have stored := (objectPtr_eq_some isObject).2
          have tidy := orderly.tidy address obj stored
          exact orderly.step (putObject_isolates (tidy.inUse orderly.wellFormed) _)
            ⟨Function.update_self _ _ _, tidy.distinct, tidy.known, tidy.sync, tidy.capacity,
              tidy.fits, tidy.tag⟩
  | setObjectProtoDefault proto =>
      refine orderly.quiet fun address => ⟨?_, fun _ _ _ stored => stored, List.prefix_rfl⟩
      exact ⟨fun wellFormed => ⟨wellFormed.atoms, wellFormed.cells, wellFormed.maps⟩,
        Nat.le_refl _, fun _ _ _ => rfl, fun _ _ _ => rfl, fun _ _ isText => isText⟩

/-- Every heap that is safely reached is in order. -/
theorem SafelyReached.orderly {size : ℕ} {ctx : Context} (reached : SafelyReached size ctx) :
    ctx.Orderly := by
  induction reached with
  | new => exact ⟨⟨AtomTable.wellFormed_new, fun _ _ => rfl, fun _ _ => rfl⟩, nofun⟩
  | act reached small safe ih => exact ih.act small safe

/-! ## What one object holds under a name -/

/-- What one object holds under a name. -/
def held (ctx : Context) (name : Bytes) (address : ℕ) (obj : HeapObject) : Option JSValue :=
  match parseIndex name with
  | some idx => ctx.ownIndex idx address obj
  | none =>
      match ctx.atoms.find name with
      | some atom => ctx.ownAtom atom (name = asBytes "length") address obj
      | none =>
          if obj.isArray = true ∧ name = asBytes "length" then some (.int obj.arrayLen.toInt32)
          else none

/-- The length of an array is read. -/
def readsLength (name : Bytes) (_ : ℕ) (obj : HeapObject) : Bool :=
  obj.isArray && name = asBytes "length"

/-- The two heaps have objects at the same addresses, with the same prototypes, that
hold the same. -/
structure Mirrors {α : Type} (before after : Context) (own own' : ℕ → HeapObject → α) :
    Prop where
  forth : ∀ address obj, before.heap address = some (.object obj) →
    ∃ obj', after.heap address = some (.object obj') ∧ obj'.proto = obj.proto ∧
      own' address obj' = own address obj
  back : ∀ address obj', after.heap address = some (.object obj') →
    ∃ obj, before.heap address = some (.object obj)

namespace Mirrors

variable {before after : Context}

/-- Both contexts have an object at a value, with the same prototype, or neither has. -/
theorem objectPtr_cases {α : Type} {own own' : ℕ → HeapObject → α}
    (mirrors : Mirrors before after own own') (val : JSValue) :
    (before.objectPtr val = none ∧ after.objectPtr val = none) ∨
      ∃ address obj obj', before.objectPtr val = some (address, obj) ∧
        after.objectPtr val = some (address, obj') ∧ obj'.proto = obj.proto ∧
        own' address obj' = own address obj := by
  cases isObject : before.objectPtr val with
  | none =>
      refine .inl ⟨rfl, ?_⟩
      cases isObject' : after.objectPtr val with
      | none => rfl
      | some found =>
          obtain ⟨address, obj'⟩ := found
          obtain ⟨rfl, stored⟩ := objectPtr_eq_some isObject'
          obtain ⟨obj, isOld⟩ := mirrors.back address obj' stored
          rw [objectPtr, isOld] at isObject
          cases isObject
  | some found =>
      obtain ⟨address, obj⟩ := found
      obtain ⟨rfl, stored⟩ := objectPtr_eq_some isObject
      obtain ⟨obj', isNew, same⟩ := mirrors.forth address obj stored
      exact .inr ⟨address, obj, obj', rfl, by rw [objectPtr, isNew], same⟩

theorem getFromChain {own own' : ℕ → HeapObject → Option JSValue}
    (mirrors : Mirrors before after own own') (depth : ℕ) (val : JSValue) :
    after.getFromChain own' depth val = before.getFromChain own depth val := by
  induction depth generalizing val with
  | zero => rfl
  | succ depth ih =>
      rw [Context.getFromChain, Context.getFromChain]
      obtain ⟨isNone, isNone'⟩ |
        ⟨address, obj, obj', isObject, isObject', sameProto, sameOwn⟩ := mirrors.objectPtr_cases val
      · rw [isNone, isNone']
      · rw [isObject, isObject']
        dsimp only
        rw [sameOwn, sameProto, ih]

theorem hasInChain {own own' : ℕ → HeapObject → Bool}
    (mirrors : Mirrors before after own own') (depth : ℕ) (val : JSValue) :
    after.hasInChain own' depth val = before.hasInChain own depth val := by
  induction depth generalizing val with
  | zero => rfl
  | succ depth ih =>
      rw [Context.hasInChain, Context.hasInChain]
      obtain ⟨isNone, isNone'⟩ |
        ⟨address, obj, obj', isObject, isObject', sameProto, sameOwn⟩ := mirrors.objectPtr_cases val
      · rw [isNone, isNone']
      · rw [isObject, isObject']
        dsimp only
        rw [sameOwn, sameProto, ih]

theorem map {α β : Type} {own own' : ℕ → HeapObject → α} (mirrors : Mirrors before after own own')
    (f : α → β) :
    Mirrors before after (fun address obj => f (own address obj))
      fun address obj => f (own' address obj) where
  forth := fun address obj stored => by
    obtain ⟨obj', isNew, sameProto, sameOwn⟩ := mirrors.forth address obj stored
    exact ⟨obj', isNew, sameProto, congrArg f sameOwn⟩
  back := mirrors.back

end Mirrors

/-- Nothing is found where no object of the chain holds anything. -/
theorem getFromChain_absent {ctx : Context} {own : ℕ → HeapObject → Option JSValue}
    {reads : ℕ → HeapObject → Bool}
    (absent : ∀ address obj, reads address obj = false → own address obj = none) {depth : ℕ}
    {val : JSValue} (unread : ctx.hasInChain reads depth val = false) :
    (ctx.getFromChain own depth val).getD .undefined = .undefined ∧
      ctx.hasInChain (fun address obj => (own address obj).isSome) depth val = false := by
  induction depth generalizing val with
  | zero => exact ⟨rfl, rfl⟩
  | succ depth ih =>
      rw [hasInChain] at unread
      rw [getFromChain, hasInChain]
      cases isObject : ctx.objectPtr val with
      | none => exact ⟨rfl, rfl⟩
      | some found =>
          obtain ⟨address, obj⟩ := found
          rw [isObject] at unread
          dsimp only at unread ⊢
          cases isRead : reads address obj with
          | true =>
              rw [isRead] at unread
              cases unread
          | false =>
              rw [isRead, if_neg Bool.false_ne_true] at unread
              rw [absent address obj isRead]
              dsimp only
              rw [Option.isSome_none, if_neg Bool.false_ne_true]
              split
              · exact ⟨rfl, rfl⟩
              · rename_i hasProto
                rw [if_neg hasProto] at unread
                exact ih unread

/-- What is reported is what the objects of the chain hold. -/
theorem report_eq {ctx : Context} (orderly : ctx.Orderly) (small : ctx.Small) {val : JSValue}
    {address : ℕ} {obj : HeapObject} (isObject : ctx.objectPtr val = some (address, obj))
    {name : Bytes} (noLength : ctx.hasInChain (readsLength name) protoSearchLimit val = false) :
    ctx.report val name =
      { value := (ctx.getFromChain (ctx.held name) protoSearchLimit val).getD .undefined
        present := ctx.hasInChain (fun address obj => (ctx.held name address obj).isSome)
          protoSearchLimit val
        listed := decide (name ∈ (ctx.objectKeys val).getD []) } := by
  have isGet := getPropertyStr_eq isObject name
  have isHas := hasPropertyStr_eq isObject name
  have both : (ctx.getPropertyStr val name).1.getD .undefined =
      (ctx.getFromChain (ctx.held name) protoSearchLimit val).getD .undefined ∧
      (ctx.hasPropertyStr val name).1 =
        ctx.hasInChain (fun address obj => (ctx.held name address obj).isSome)
          protoSearchLimit val := by
    rw [isGet, isHas]
    unfold held keyOf
    cases isIndex : parseIndex name with
    | some idx => exact ⟨rfl, rfl⟩
    | none =>
        dsimp only
        cases isFound : ctx.atoms.find name with
        | some atom =>
            have interned : ctx.internString name = (some atom, ctx) := by
              rw [internString, isFound]
            rw [interned]
            exact ⟨rfl, rfl⟩
        | none =>
            have absent : ∀ (place : ℕ) (held : HeapObject), readsLength name place held = false →
                (if held.isArray = true ∧ name = asBytes "length" then
                  some (JSValue.int held.arrayLen.toInt32) else none) = none := by
              intro place held unread
              refine if_neg fun isLength => ?_
              rw [readsLength, isLength.1, isLength.2] at unread
              cases unread
            obtain ⟨noValue, notPresent⟩ := getFromChain_absent absent noLength
            dsimp only
            rw [noValue, notPresent]
            cases isInterned : (ctx.internString name).1 with
            | none => exact ⟨rfl, rfl⟩
            | some atom =>
                have isolates := internString_isolates orderly.wellFormed small.atoms
                have isText := (internString_spec orderly.wellFormed small.atoms name).2.1 atom
                  isInterned
                have afterOrderly := orderly.quiet fun address => isolates address name
                have isNew : ctx.atoms.entries.length ≤ atom.toNat := by
                  have foundLater := (afterOrderly.wellFormed.atoms.find_eq_some_iff name atom).mpr
                    (atomBytes_eq_some_iff.mp isText)
                  rcases (isolates 0 name).find_atom orderly.wellFormed afterOrderly.wellFormed
                    foundLater with isOld | isNew
                  · rw [isFound] at isOld
                    cases isOld
                  · exact isNew.2
                have mirrors : Mirrors ctx (ctx.internString name).2
                    (fun _ held => if held.isArray = true ∧ name = asBytes "length" then
                      some (JSValue.int held.arrayLen.toInt32) else none)
                    ((ctx.internString name).2.ownAtom atom (name = asBytes "length")) := by
                  refine ⟨fun place held stored => ?_, fun place held stored => ?_⟩
                  · have tidy := orderly.tidy place held stored
                    have other : place ≠ place + 1 := Nat.ne_of_lt (Nat.lt_succ_self place)
                    have afterTidy := tidy.mono orderly.wellFormed (isolates (place + 1) name) other
                    refine ⟨held, afterTidy.stored, rfl, ?_⟩
                    rw [ownAtom, afterTidy.findPropValue_eq, tidy.findProp_new isNew]
                    simp only [decide_eq_true_eq]
                  · exact ⟨held, (isolates (place + 1) name).objects place held
                      (Nat.ne_of_lt (Nat.lt_succ_self place)) stored⟩
                rw [Option.map_some, Option.bind_some, Option.elim_some]
                refine ⟨?_, ?_⟩
                · exact (congrArg (fun found => Option.getD found JSValue.undefined)
                    (mirrors.getFromChain protoSearchLimit val)).trans noValue
                · exact ((mirrors.map Option.isSome).hasInChain protoSearchLimit val).trans notPresent
  rw [report, both.1, both.2]

/-! ## Two names -/

/-- The element of an array. -/
def elementOf (obj : HeapObject) (idx : UInt32) : Option JSValue :=
  if obj.isArray = true ∧ idx < obj.arrayLen then some (arrayGet obj idx) else none

theorem ownIndex_eq {ctx : Context} {address : ℕ} {obj : HeapObject}
    (tidy : ctx.Tidy address obj) (idx : UInt32) :
    ctx.ownIndex idx address obj = (elementOf obj idx).or (obj.findProp ⟨.index, idx⟩) := by
  unfold ownIndex elementOf
  rw [tidy.findPropValue_eq]
  split <;> rfl

/-- The key of a proper name is listed under it. -/
theorem IsKey.keyText {ctx : Context} {name : Bytes} {key : PropKey} (isKey : ctx.IsKey name key)
    (proper : ProperName name) : ctx.keyText key = some name := by
  unfold IsKey at isKey
  unfold ProperName at proper
  cases isIndex : parseIndex name with
  | some idx =>
      rw [isIndex] at isKey proper
      dsimp only at isKey proper
      rw [isKey, proper]
      rfl
  | none =>
      rw [isIndex] at isKey proper
      obtain ⟨atom, rfl, isText⟩ := isKey
      unfold Context.keyText
      dsimp only
      rw [isText]
      exact if_pos proper

/-- An object that has the same under the keys of a name holds the same under it. -/
theorem held_eq {ctx after : Context} {address place : ℕ} (isolates : Isolates address ctx after)
    (wellFormed : ctx.WellFormed) {obj obj' : HeapObject} (tidy : ctx.Tidy place obj)
    (tidy' : after.Tidy place obj') {name : Bytes} (sameArray : obj'.isArray = obj.isArray)
    (elements : ∀ idx, parseIndex name = some idx → elementOf obj' idx = elementOf obj idx)
    (length : obj.isArray = true → name = asBytes "length" → obj'.arrayLen = obj.arrayLen)
    (find : ∀ key, after.IsKey name key → obj'.findProp key = obj.findProp key) :
    after.held name place obj' = ctx.held name place obj := by
  have wellFormed' := isolates.changes.wellFormed wellFormed
  unfold held
  unfold IsKey at find
  cases isIndex : parseIndex name with
  | some idx =>
      rw [isIndex] at find
      dsimp only
      rw [ownIndex_eq tidy', ownIndex_eq tidy, elements idx isIndex, find _ rfl]
  | none =>
      rw [isIndex] at find
      dsimp only
      have isLength : (if obj'.isArray = true ∧ name = asBytes "length" then
          some (JSValue.int obj'.arrayLen.toInt32) else none) =
          if obj.isArray = true ∧ name = asBytes "length" then
            some (JSValue.int obj.arrayLen.toInt32) else none := by
        rw [sameArray]
        split
        · rename_i both
          rw [length both.1 both.2]
        · rfl
      have ownAtom_eq : ∀ {ctx : Context} {obj : HeapObject} (atom : UInt32),
          ctx.Tidy place obj → ctx.ownAtom atom (name = asBytes "length") place obj =
            (if obj.isArray = true ∧ name = asBytes "length" then
              some (JSValue.int obj.arrayLen.toInt32) else none).or
              (obj.findProp ⟨.atom, atom⟩) := by
        intro ctx obj atom tidy
        unfold ownAtom
        rw [tidy.findPropValue_eq]
        simp only [decide_eq_true_eq]
        split <;> rfl
      cases isFound : after.atoms.find name with
      | none =>
          cases wasFound : ctx.atoms.find name with
          | none => exact isLength
          | some atom =>
              have stored := (wellFormed.atoms.find_eq_some_iff name atom).mp wasFound
              rw [← isolates.getElem?_entries (List.getElem?_eq_some_iff.mp stored).1] at stored
              rw [(wellFormed'.atoms.find_eq_some_iff name atom).mpr stored] at isFound
              cases isFound
      | some atom =>
          have stored := (wellFormed'.atoms.find_eq_some_iff name atom).mp isFound
          have isText := atomBytes_eq_some_iff.mpr stored
          dsimp only
          rw [ownAtom_eq atom tidy', isLength, find _ ⟨atom, rfl, isText⟩]
          rcases isolates.find_atom wellFormed wellFormed' isFound with isOld | ⟨notOld, isNew⟩
          · rw [isOld]
            exact (ownAtom_eq atom tidy).symm
          · rw [notOld, tidy.findProp_new isNew, Option.or_none]

/-- A write under the first name makes the element of the second one: it is between
the length of the array and the index that is written. -/
def Between (obj : HeapObject) (name name' : Bytes) : Prop :=
  obj.isArray = true ∧ ∃ idx idx', parseIndex name = some idx ∧ parseIndex name' = some idx' ∧
    obj.arrayLen ≤ idx' ∧ idx' < idx

section Leaves

variable {ctx after : Context} {address : ℕ} {name name' : Bytes} {obj obj' : HeapObject}
  {isThere : Prop} (leaves : after.Leaves name obj obj' isThere)

include leaves

theorem Leaves.proto : obj'.proto = obj.proto := by
  cases leaves with
  | touched isKey touches found noElement => exact touches.proto
  | filled isIndex isArray fills isSet => exact fills.proto
  | kept same absent => rw [same]

theorem Leaves.isArray : obj'.isArray = obj.isArray := by
  cases leaves with
  | touched isKey touches found noElement => exact touches.isArray
  | filled isIndex isArray fills isSet => exact fills.isArray
  | kept same absent => rw [same]

variable (proper : ProperName name) (distinct : name' ≠ name)

include proper distinct

theorem Leaves.findProp_eq {key : PropKey} (isText : after.keyText key = some name') :
    obj'.findProp key = obj.findProp key := by
  cases leaves with
  | touched isKey touches found noElement =>
      refine touches.find key fun same => ?_
      rw [same, isKey.keyText proper, Option.some.injEq] at isText
      exact distinct isText.symm
  | filled isIndex isArray fills isSet =>
      unfold HeapObject.findProp
      rw [fills.props]
  | kept same absent => rw [same]

theorem Leaves.elementOf_eq (proper' : ProperName name')
    (still : ¬(isThere ∧ Between obj name name')) {idx' : UInt32}
    (isIndex' : parseIndex name' = some idx') : elementOf obj' idx' = elementOf obj idx' := by
  cases leaves with
  | touched isKey touches found noElement =>
      unfold elementOf arrayGet
      rw [touches.isArray, touches.arrayLen, touches.elements]
  | @filled idx isIndex isArray fills isSet =>
      have other : idx' ≠ idx := by
        intro same
        unfold ProperName at proper proper'
        rw [isIndex] at proper
        rw [isIndex', same] at proper'
        exact distinct ((show name' = natBytes idx.toNat from proper').trans
          (show name = natBytes idx.toNat from proper).symm)
      have otherNat : idx'.toNat ≠ idx.toNat := fun same => other (UInt32.toNat_inj.mp same)
      unfold elementOf
      rw [fills.isArray]
      by_cases inside : idx' < obj.arrayLen
      · have insideNat : idx'.toNat < obj.arrayLen.toNat := inside
        have stillInside : idx' < obj'.arrayLen := by
          rw [UInt32.lt_iff_toNat_lt, fills.arrayLen]
          omega
        rw [if_pos ⟨isArray, stillInside⟩, if_pos ⟨isArray, inside⟩, fills.others idx' inside other]
      · have outsideNat : obj.arrayLen.toNat ≤ idx'.toNat := UInt32.not_lt.mp inside
        have outside' : ¬idx' < obj'.arrayLen := by
          intro nowInside
          rw [UInt32.lt_iff_toNat_lt, fills.arrayLen] at nowInside
          have before : idx'.toNat < idx.toNat := by omega
          rcases isSet with done | wasInside
          · exact still ⟨done, isArray, idx, idx', isIndex, isIndex', outsideNat, before⟩
          · have wasInsideNat : idx.toNat < obj.arrayLen.toNat := wasInside
            omega
        rw [if_neg fun both => outside' both.2, if_neg fun both => inside both.2]
  | kept same absent => rw [same]

end Leaves

/-- The listed names are those of the elements and of the properties. -/
theorem mem_objectKeys {ctx : Context} {address : ℕ} {obj : HeapObject}
    (tidy : ctx.Tidy address obj) (name : Bytes) :
    name ∈ (ctx.objectKeys (.ptr address)).getD [] ↔
      (∃ idx, name = natBytes idx.toNat ∧ (elementOf obj idx).isSome = true) ∨
        ∃ key, obj.findProp key ≠ none ∧ ctx.keyText key = some name := by
  have isList : (ctx.objectKeys (.ptr address)).getD [] =
      (if obj.isArray then (List.range obj.arrayLen.toNat).map natBytes else []) ++
        obj.props.filterMap fun prop => ctx.keyText prop.key := by
    rw [objectKeys, tidy.isObject]
    rfl
  rw [isList, List.mem_append]
  refine or_congr ?_ ?_
  · constructor
    · intro isElement
      split at isElement
      · rename_i isArray
        obtain ⟨j, isBelow, rfl⟩ := List.mem_map.mp isElement
        rw [List.mem_range] at isBelow
        have isNat : (UInt32.ofNat j).toNat = j :=
          UInt32.toNat_ofNat_of_lt' (isBelow.trans obj.arrayLen.toNat_lt)
        refine ⟨UInt32.ofNat j, by rw [isNat], ?_⟩
        rw [elementOf, if_pos ⟨isArray, UInt32.lt_iff_toNat_lt.mpr (by rw [isNat]; exact isBelow)⟩]
        rfl
      · cases isElement
    · rintro ⟨idx, rfl, isElement⟩
      unfold elementOf at isElement
      split at isElement
      · rename_i both
        rw [if_pos both.1]
        exact List.mem_map.mpr ⟨idx.toNat, List.mem_range.mpr both.2, rfl⟩
      · cases isElement
  · constructor
    · intro isListed
      obtain ⟨prop, isProp, isText⟩ := List.mem_filterMap.mp isListed
      refine ⟨prop.key, fun absent => ?_, isText⟩
      have notFound := Option.map_eq_none_iff.mp absent
      rw [List.find?_eq_none] at notFound
      exact notFound prop isProp (decide_eq_true rfl)
    · rintro ⟨key, found, isText⟩
      obtain ⟨value, isValue⟩ := Option.ne_none_iff_exists'.mp found
      obtain ⟨prop, isFound, -⟩ := Option.map_eq_some_iff.mp isValue
      have isKey := List.find?_some isFound
      have sameKey : prop.key = key := of_decide_eq_true isKey
      exact List.mem_filterMap.mpr ⟨prop, List.mem_of_find?_eq_some isFound, by rw [sameKey, isText]⟩

/-- A key that was known keeps its text. -/
theorem Isolates.keyText_eq {ctx after : Context} {address : ℕ}
    (isolates : Isolates address ctx after) {key : PropKey}
    (isKnown : key.kind = .atom → key.key.toNat < ctx.atoms.entries.length) :
    after.keyText key = ctx.keyText key := by
  obtain ⟨kind, key⟩ := key
  cases kind with
  | index => rfl
  | atom =>
      unfold keyText atomBytes
      dsimp only
      rw [isolates.getElem?_entries (isKnown rfl)]

section Steps

variable {ctx after : Context} {address : ℕ} {obj : HeapObject} {name name' : Bytes}
  {isThere : Prop} (steps : ctx.Steps address obj name isThere after)

include steps

/-- A step keeps what the objects hold when it keeps what its own object holds, and an
object that it keeps holds the same. -/
theorem Steps.mirrors_of {α : Type} {own own' : ℕ → HeapObject → α} (orderly : ctx.Orderly)
    (tidy : ctx.Tidy address obj)
    (here : ∀ obj', after.Tidy address obj' → after.Leaves name obj obj' isThere →
      own' address obj' = own address obj)
    (elsewhere : ∀ place held, ctx.Tidy place held → after.Tidy place held →
      own' place held = own place held) :
    Mirrors ctx after own own' := by
  obtain ⟨isolates, obj', afterTidy, leaves⟩ := steps
  refine ⟨fun place held stored => ?_, fun place held stored => ?_⟩
  · by_cases same : place = address
    · rw [same, tidy.stored] at stored
      cases stored
      rw [same]
      exact ⟨obj', afterTidy.stored, leaves.proto, here obj' afterTidy leaves⟩
    · have placeTidy := orderly.tidy place held stored
      have placeAfter := placeTidy.mono orderly.wellFormed isolates same
      exact ⟨held, placeAfter.stored, rfl, elsewhere place held placeTidy placeAfter⟩
  · by_cases same : place = address
    · rw [same]
      exact ⟨obj, tidy.stored⟩
    · exact ⟨held, isolates.objects place held same stored⟩

/-- A step under one name keeps what all objects hold under another, but for elements
that it makes. -/
theorem Steps.mirrors (orderly : ctx.Orderly) (tidy : ctx.Tidy address obj)
    (proper : ProperName name) (distinct : name' ≠ name)
    (proper' : ProperName name') (still : ¬(isThere ∧ Between obj name name'))
    (noLength : obj.isArray = true → name' ≠ asBytes "length") :
    Mirrors ctx after (ctx.held name') (after.held name') := by
  have isolates := steps.1
  refine steps.mirrors_of orderly tidy (fun obj' afterTidy leaves => ?_)
    fun place held placeTidy placeAfter => held_eq isolates orderly.wellFormed placeTidy placeAfter
      rfl (fun _ _ => rfl) (fun _ _ => rfl) fun _ _ => rfl
  refine held_eq isolates orderly.wellFormed tidy afterTidy leaves.isArray ?_ ?_ ?_
  · exact fun idx isIndex => leaves.elementOf_eq proper distinct proper' still isIndex
  · exact fun isArray isLength => absurd isLength (noLength isArray)
  · exact fun key isKey => leaves.findProp_eq proper distinct (isKey.keyText proper')

/-- A step under one name lists another when it was listed before, but for elements
that it makes. -/
theorem Steps.listed_iff (tidy : ctx.Tidy address obj) (proper : ProperName name) (distinct : name' ≠ name)
    (proper' : ProperName name') (still : ¬(isThere ∧ Between obj name name')) :
    name' ∈ (after.objectKeys (.ptr address)).getD [] ↔
      name' ∈ (ctx.objectKeys (.ptr address)).getD [] := by
  obtain ⟨isolates, obj', afterTidy, leaves⟩ := steps
  rw [mem_objectKeys afterTidy, mem_objectKeys tidy]
  refine or_congr ?_ ?_
  · refine exists_congr fun idx => and_congr_right fun isName => ?_
    have isIndex : parseIndex name' = some idx := by
      rw [isName]
      exact parseIndex_natBytes idx
    rw [leaves.elementOf_eq proper distinct proper' still isIndex]
  · refine exists_congr fun key => ⟨?_, ?_⟩
    · rintro ⟨found, isText⟩
      rw [leaves.findProp_eq proper distinct isText] at found
      rw [isolates.keyText_eq (tidy.known_of_found found)] at isText
      exact ⟨found, isText⟩
    · rintro ⟨found, isText⟩
      rw [← isolates.keyText_eq (tidy.known_of_found found)] at isText
      rw [← leaves.findProp_eq proper distinct isText] at found
      exact ⟨found, isText⟩

/-- A property that is set is listed under its name. -/
theorem Steps.listed_of_set (proper : ProperName name) (done : isThere) :
    name ∈ (after.objectKeys (.ptr address)).getD [] := by
  obtain ⟨isolates, obj', afterTidy, leaves⟩ := steps
  rw [mem_objectKeys afterTidy]
  cases leaves with
  | touched isKey touches found noElement =>
      exact .inr ⟨_, found done, isKey.keyText proper⟩
  | @filled idx isIndex isArray fills isSet =>
      unfold ProperName at proper
      rw [isIndex] at proper
      have inside : idx < obj'.arrayLen := by
        rw [UInt32.lt_iff_toNat_lt, fills.arrayLen]
        omega
      refine .inl ⟨idx, proper, ?_⟩
      rw [elementOf, if_pos ⟨fills.isArray.trans isArray, inside⟩]
      rfl
  | kept same absent => exact absurd done absent

/-- The elements that a step makes are undefined. -/
theorem Steps.made (done : isThere) (between : Between obj name name') :
    ∃ obj' idx', after.heap address = some (.object obj') ∧ parseIndex name' = some idx' ∧
      elementOf obj' idx' = some .undefined := by
  obtain ⟨isolates, obj', afterTidy, leaves⟩ := steps
  obtain ⟨isArray, idx, idx', isIndex, isIndex', outside, before⟩ := between
  refine ⟨obj', idx', afterTidy.stored, isIndex', ?_⟩
  cases leaves with
  | touched isKey touches found noElement =>
      rw [noElement done isArray] at isIndex
      cases isIndex
  | @filled written isWritten _ fills isSet =>
      rw [isWritten, Option.some.injEq] at isIndex
      subst isIndex
      have beforeNat : idx'.toNat < written.toNat := before
      have inside : idx' < obj'.arrayLen := by
        rw [UInt32.lt_iff_toNat_lt, fills.arrayLen]
        omega
      rw [elementOf, if_pos ⟨fills.isArray.trans isArray, inside⟩, fills.between idx' outside before]
  | kept same absent => exact absurd done absent

end Steps

/-- A step keeps which objects are arrays. -/
theorem Steps.sameArrays {ctx after : Context} {address : ℕ} {obj : HeapObject} {name : Bytes}
    {isThere : Prop} (steps : ctx.Steps address obj name isThere after) (orderly : ctx.Orderly)
    (tidy : ctx.Tidy address obj) (probe : Bytes) :
    Mirrors ctx after (readsLength probe) (readsLength probe) := by
  refine steps.mirrors_of orderly tidy (fun obj' _ leaves => ?_) fun _ _ _ _ => rfl
  rw [readsLength, readsLength, leaves.isArray]

/-- A step after changes at no object. -/
theorem Steps.after_quiet {ctx start after : Context} {address : ℕ} {obj : HeapObject}
    {name : Bytes} {isThere : Prop} (isolates : Isolates address ctx start)
    (steps : start.Steps address obj name isThere after) :
    ctx.Steps address obj name isThere after := by
  obtain ⟨later, obj', afterTidy, leaves⟩ := steps
  exact ⟨isolates.trans later, obj', afterTidy, leaves⟩

/-- `js_set_property_uint32` on a typed array leaves the properties alone. -/
theorem jsSetPropertyUint32_of_typed (elements : TypedElements) {ctx : Context} {address : ℕ}
    {obj : HeapObject} (tidy : ctx.Tidy address obj)
    (isTyped : ctx.isTypedArray (.ptr address) = true) (idx : UInt32) {value : JSValue}
    (notObject : ctx.objectPtr value = none) :
    (ctx.jsSetPropertyUint32 elements (.ptr address) idx value).2 = ctx := by
  have notArray : obj.isArray = false := by
    rw [tidy.tag]
    refine decide_eq_false fun isArray => ?_
    rw [isTypedArray, tidy.isObject, Option.any_some] at isTyped
    dsimp only at isTyped
    rw [isArray] at isTyped
    revert isTyped
    decide
  have direct : ctx.arrayDirectSet (.ptr address) idx value = (false, ctx) := by
    rw [arrayDirectSet, tidy.isObject]
    dsimp only
    rw [notArray, if_neg Bool.false_ne_true]
  rw [jsSetPropertyUint32, direct]
  dsimp only
  rw [if_neg Bool.false_ne_true, if_pos isTyped]
  split
  · rw [jsToNumber, notObject]
    rfl
  · rfl

/-- On another object it is `set_property_index`. -/
theorem jsSetPropertyUint32_eq (elements : TypedElements) {ctx : Context} {address : ℕ}
    {obj : HeapObject} (tidy : ctx.Tidy address obj) (memory : ctx.mem.size < 2 ^ 35)
    (notTyped : ctx.isTypedArray (.ptr address) = false) (idx : UInt32) (value : JSValue) :
    ctx.jsSetPropertyUint32 elements (.ptr address) idx value =
      (if (ctx.setPropertyIndex (.ptr address) idx value).1 then value else .exception,
        (ctx.setPropertyIndex (.ptr address) idx value).2) := by
  unfold jsSetPropertyUint32 arrayDirectSet
  rw [tidy.isObject]
  dsimp only
  cases isArray : obj.isArray with
  | false =>
      rw [if_neg Bool.false_ne_true]
      dsimp only
      rw [if_neg Bool.false_ne_true, notTyped, if_neg Bool.false_ne_true]
  | true =>
      have isSet := setPropertyIndex_of_array tidy.isObject isArray idx value
      rcases tidy.arraySet memory idx value with fails | ⟨isDone, -⟩
      · rw [isSet, if_pos rfl, fails]
        dsimp only
        rw [if_neg Bool.false_ne_true, notTyped, if_neg Bool.false_ne_true, isSet, fails]
      · rw [isSet, if_pos rfl, isDone]
        rfl

/-- `js_set_property_str` without a setter is `set_property_str`. -/
theorem jsSetPropertyStr_eq (engine : Json.Engine) {ctx : Context} {val value : JSValue}
    {name : Bytes} (direct : (Write.jsSet name value).Direct val ctx) :
    ctx.jsSetPropertyStr engine val name value =
      (if (((Write.jsSet name value).start val ctx).setPropertyStr val name value).1
        then value else .exception,
        (((Write.jsSet name value).start val ctx).setPropertyStr val name value).2) := by
  obtain ⟨-, noSetter⟩ := direct
  have noCall : ctx.callAccessor engine val "__set__" name [value] =
      (none, (Write.jsSet name value).start val ctx) := by
    unfold callAccessor Write.start
    dsimp only
    cases isAccessor : Json.isAccessorName name with
    | true => rfl
    | false =>
        have isUndefined := noSetter isAccessor
        rw [if_neg Bool.false_ne_true, if_neg Bool.false_ne_true]
        generalize ctx.getPropertyStr val (asBytes "__set__" ++ name) = outcome at isUndefined ⊢
        obtain ⟨found, after⟩ := outcome
        cases found with
        | none => rfl
        | some found => exact if_pos isUndefined
  rw [jsSetPropertyStr, noCall]

end Context

namespace Write

open Context

/-- The contexts before the write, when it comes to the context, and after it. -/
structure Fits (engine : Json.Engine) (elements : TypedElements) (val : JSValue)
    (ctx : Context) (write : Write) : Prop where
  before : ctx.Small
  start : (write.start val ctx).Small
  after : (write.run engine elements val ctx).2.Small

/-- What an operation on the API returns tells whether the property is set. -/
theorem returned_iff {value : JSValue} (isValue : value ≠ .exception) (isSet : Bool) :
    (decide ((if isSet then value else JSValue.exception) ≠ .exception) = true) ↔
      isSet = true := by
  cases isSet with
  | false => exact ⟨fun returned => absurd rfl (of_decide_eq_true returned), nofun⟩
  | true => exact ⟨fun _ => rfl, fun _ => decide_eq_true isValue⟩

/-- A write is a step under its key. -/
theorem run_steps (engine : Json.Engine) (elements : TypedElements) {ctx : Context} (orderly : ctx.Orderly) {address : ℕ}
    {obj : HeapObject} (tidy : ctx.Tidy address obj) (write : Write)
    (fits : write.Fits engine elements (.ptr address) ctx) (direct : write.Direct (.ptr address) ctx)
    (safe : write.op.Safe (.ptr address) (write.start (.ptr address) ctx))
    (notLength : obj.isArray = true → write.key ≠ asBytes "length") :
    ctx.Steps address obj write.key
      ((write.run engine elements (.ptr address) ctx).1 = true ∧
        write.sets (.ptr address) ctx = true)
      (write.run engine elements (.ptr address) ctx).2 := by
  have small := fits.before
  have uint32 : ∀ (idx : UInt32) (value : JSValue), value ≠ .exception →
      (ctx.isTypedArray (.ptr address) = true → ctx.objectPtr value = none) →
      PropertyOp.Safe (.setIndex idx value) (.ptr address) ctx →
      ctx.Steps address obj (natBytes idx.toNat)
        (decide ((ctx.jsSetPropertyUint32 elements (.ptr address) idx value).1 ≠ .exception) = true ∧
          (!ctx.isTypedArray (.ptr address)) = true)
        (ctx.jsSetPropertyUint32 elements (.ptr address) idx value).2 := by
    intro idx value isValue notObject safe
    cases isTyped : ctx.isTypedArray (.ptr address) with
    | true =>
        rw [jsSetPropertyUint32_of_typed elements tidy isTyped idx (notObject isTyped)]
        exact ⟨.refl address ctx, obj, tidy, .kept rfl fun both => absurd both.2 (by decide)⟩
    | false =>
        have steps := steps_setIndex orderly small tidy idx value safe
        rw [jsSetPropertyUint32_eq elements tidy small.memory isTyped, returned_iff isValue,
          Bool.not_false, and_iff_left rfl]
        exact steps
  cases write with
  | set name value =>
      change ctx.Steps _ _ _ (_ ∧ true = true) _
      rw [and_iff_left rfl]
      exact steps_setStr orderly small tidy name value safe notLength
  | setIndex idx value =>
      change ctx.Steps _ _ _ (_ ∧ true = true) _
      rw [and_iff_left rfl]
      exact steps_setIndex orderly small tidy idx value safe
  | jsSet name value =>
      change ctx.Steps address obj name
        (decide ((ctx.jsSetProperty engine (.ptr address) name value).1 ≠ .exception) = true ∧
          true = true) (ctx.jsSetProperty engine (.ptr address) name value).2
      by_cases refused : obj.classId = arrayClass && refusesName name
      · have isRefused : ctx.jsSetProperty engine (.ptr address) name value = (.exception, ctx) := by
          rw [jsSetProperty, tidy.isObject]
          exact if_pos refused
        rw [isRefused]
        exact ⟨.refl address ctx, obj, tidy, .kept rfl fun both =>
          absurd rfl (of_decide_eq_true both.1)⟩
      · have isSet : ctx.jsSetProperty engine (.ptr address) name value =
            ctx.jsSetPropertyStr engine (.ptr address) name value := by
          rw [jsSetProperty, tidy.isObject]
          exact if_neg refused
        rw [isSet, jsSetPropertyStr_eq engine direct]
        dsimp only
        rw [returned_iff direct.1, and_iff_left rfl]
        have started : ∀ place, Isolates place ctx ((Write.jsSet name value).start (.ptr address) ctx) := by
          intro place
          unfold start
          dsimp only
          split
          · exact .refl place ctx
          · exact getPropertyStr_isolates orderly small _ _ place
        have startTidy := tidy.mono orderly.wellFormed (started (address + 1))
          (Nat.ne_of_lt (Nat.lt_succ_self address))
        exact (steps_setStr (orderly.quiet started) fits.start startTidy name value safe
          notLength).after_quiet (started address)
  | jsSetUint32 idx value => exact uint32 idx value direct.1 direct.2 safe
  | bracket number value =>
      obtain ⟨⟨isValue, notObject⟩, notNegative⟩ := direct
      have isKey : Json.i32Bytes number = natBytes number.toUInt32.toNat := by
        have isInt : 0 ≤ number.toInt := Int32.le_iff_toInt_le.mp notNegative
        rw [Json.i32Bytes, if_neg (not_lt.mpr isInt), Int32.toNat_toUInt32_of_le notNegative,
          Int32.toNatClampNeg]
        congr 1
        omega
      have steps := uint32 number.toUInt32 value isValue notObject safe
      rw [← isKey] at steps
      exact steps
  | delete name =>
      change ctx.Steps _ _ _ (_ ∧ false = true) _
      rw [eq_false Bool.false_ne_true, and_false]
      exact steps_deleteStr orderly small tidy name
  | deleteIndex idx =>
      change ctx.Steps _ _ _ (_ ∧ false = true) _
      rw [eq_false Bool.false_ne_true, and_false]
      exact steps_deleteIndex orderly small tidy (parseIndex_natBytes idx)

end Write

/-! ## Keys do not alias -/

namespace Context

/-- Keys of one value do not alias: a write under one key keeps what is reported for
any other, and a key that is set is listed as it is spelled; the length of an array
is excepted. -/
def KeepsApart (engine : Json.Engine) (elements : TypedElements) (ctx : Context) (val : JSValue) (obj : HeapObject) : Prop :=
  ∀ (write : Write) (name : Bytes), name ≠ write.key →
    (fromUtf8 write.key).isSome = true → (fromUtf8 name).isSome = true →
    (obj.isArray = true → write.key ≠ asBytes "length" ∧ name ≠ asBytes "length") →
    (write.run engine elements val ctx).2.report val name = ctx.report val name ∧
      ((write.run engine elements val ctx).1 = true → write.sets val ctx = true →
        ((write.run engine elements val ctx).2.report val write.key).listed = true)

/-- An engine that runs no closure. -/
def plainEngine : Json.Engine :=
  ⟨fun ctx _ _ _ => (none, ctx), fun _ => [], ⟨.null, .null, .null⟩⟩

/-- No element is found. -/
def plainElements : TypedElements :=
  ⟨fun _ _ _ => false, fun _ ctx val => (val, ctx), fun _ => false, fun _ => []⟩

/-- An array that is written beyond its length gets the elements in between. -/
theorem not_always_keepsApart :
    ¬∀ (engine : Json.Engine) (elements : TypedElements) (size : ℕ) (ctx : Context), Reached size ctx →
      ∀ (val : JSValue) (address : ℕ) (obj : HeapObject),
        ctx.objectPtr val = some (address, obj) → ctx.KeepsApart engine elements val obj := by
  intro always
  have reached : Reached 1000 ((Action.newObject arrayClass).run (new 1000)).2 :=
    .act .new (by decide) _
  have apart := always plainEngine plainElements 1000 _ reached (.ptr 0) 0 _ rfl (.setIndex 1 .null) (natBytes 0) (by decide) (by decide) (by decide)
    (fun _ => ⟨by decide, by decide⟩)
  exact absurd (congrArg Report.present apart.1) (by decide)

/-- In a context that is safely reached, a write under a proper key lists it and keeps
what is reported for every other proper name, but for the elements that an array gets
between its length and an index beyond it: those are undefined. -/
theorem write_keepsApart (engine : Json.Engine) (elements : TypedElements) {size : ℕ} {ctx : Context}
    (reached : SafelyReached size ctx) {val : JSValue} {address : ℕ} {obj : HeapObject}
    (isObject : ctx.objectPtr val = some (address, obj)) (write : Write)
    (fits : write.Fits engine elements val ctx) (direct : write.Direct val ctx)
    (safe : write.op.Safe val (write.start val ctx)) (proper : ProperName write.key)
    (notLength : obj.isArray = true → write.key ≠ asBytes "length") :
    ((write.run engine elements val ctx).1 = true ∧ write.sets val ctx = true →
      ((write.run engine elements val ctx).2.report val write.key).listed = true) ∧
    ∀ name, ProperName name → name ≠ write.key →
      ctx.hasInChain (readsLength name) protoSearchLimit val = false →
      (((write.run engine elements val ctx).1 = true ∧ write.sets val ctx = true) ∧ Between obj write.key name →
        (write.run engine elements val ctx).2.report val name = ⟨.undefined, true, true⟩) ∧
      (¬(((write.run engine elements val ctx).1 = true ∧ write.sets val ctx = true) ∧
          Between obj write.key name) →
        (write.run engine elements val ctx).2.report val name = ctx.report val name) := by
  obtain ⟨rfl, stored⟩ := objectPtr_eq_some isObject
  have orderly := reached.orderly
  have tidy := orderly.tidy address obj stored
  have steps := write.run_steps engine elements orderly tidy fits direct safe notLength
  have afterOrderly := steps.orderly orderly
  have afterSmall := fits.after
  generalize (write.run engine elements (.ptr address) ctx).2 = after at steps afterOrderly afterSmall ⊢
  obtain ⟨after', isAfter⟩ : ∃ obj', after.objectPtr (.ptr address) = some (address, obj') := by
    obtain ⟨-, obj', afterTidy, -⟩ := steps
    exact ⟨obj', afterTidy.isObject⟩
  refine ⟨fun done => decide_eq_true (steps.listed_of_set proper done),
    fun name proper' distinct unread => ?_⟩
  have stillUnread : after.hasInChain (readsLength name) protoSearchLimit (.ptr address) = false := by
    rw [(steps.sameArrays orderly tidy name).hasInChain]
    exact unread
  have noLength : obj.isArray = true → name ≠ asBytes "length" := by
    intro isArray isLength
    rw [show protoSearchLimit = protoSearchLimit - 1 + 1 from rfl, hasInChain, isObject] at unread
    dsimp only at unread
    rw [readsLength, isArray, isLength] at unread
    cases unread
  have isReport := report_eq afterOrderly afterSmall isAfter stillUnread
  refine ⟨fun made => ?_, fun still => ?_⟩
  · obtain ⟨obj', idx', isStored, isIndex', isElement⟩ := steps.made made.1 made.2
    have afterTidy := afterOrderly.tidy address obj' isStored
    have isHeld : after.held name address obj' = some .undefined := by
      unfold held
      rw [isIndex']
      dsimp only
      rw [ownIndex_eq afterTidy, isElement]
      rfl
    have isListed : name ∈ (after.objectKeys (.ptr address)).getD [] := by
      rw [mem_objectKeys afterTidy]
      unfold ProperName at proper'
      rw [isIndex'] at proper'
      exact .inl ⟨idx', proper', by rw [isElement]; rfl⟩
    have isGet : after.getFromChain (after.held name) protoSearchLimit (.ptr address) =
        some .undefined := by
      rw [show protoSearchLimit = protoSearchLimit - 1 + 1 from rfl, getFromChain,
        afterTidy.isObject]
      dsimp only
      rw [isHeld]
    have isHas : after.hasInChain (fun address obj => (after.held name address obj).isSome)
        protoSearchLimit (.ptr address) = true := by
      rw [show protoSearchLimit = protoSearchLimit - 1 + 1 from rfl, hasInChain,
        afterTidy.isObject]
      dsimp only
      rw [isHeld]
      rfl
    rw [isReport, isGet, isHas, decide_eq_true isListed]
    rfl
  · have mirrors := steps.mirrors orderly tidy proper distinct proper' still noLength
    have sameListed := steps.listed_iff tidy proper distinct proper' still
    rw [isReport, report_eq orderly fits.before isObject unread, mirrors.getFromChain,
      (mirrors.map Option.isSome).hasInChain, decide_eq_decide.mpr sameListed]

/-- An index written to an object that has none. -/
theorem write_keepsApart_index :
    withOneObject.report (.ptr 0) (natBytes 0) =
      (Write.run plainEngine plainElements (.ptr 0)
        withOneObject (.setIndex 1 .null)).2.report (.ptr 0) (natBytes 0) := by
  have reached : SafelyReached 1000 ((Action.newObject objectClass).run (new 1000)).2 :=
    .act .new ⟨by decide, by decide⟩ trivial
  refine (((write_keepsApart plainEngine plainElements
    reached (show withOneObject.objectPtr (.ptr 0) = _ from rfl) (.setIndex 1 .null)
    ⟨⟨by decide, by decide⟩, ⟨by decide, by decide⟩, ⟨by decide, by decide⟩⟩ trivial ?_ rfl
    (by decide)).2 (natBytes 0) rfl (by decide) rfl).2 ?_).symm
  · rintro address obj isObject -
    cases isObject
    exact fun _ => ⟨fun _ => rfl, fun large => absurd large (by decide)⟩
  · rintro ⟨-, isArray, -⟩
    cases isArray

end Context
end Script
end MuonJs
