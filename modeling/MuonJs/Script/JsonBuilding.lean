import MuonJs.Script.JsonWriting

/-!
# JSON values under construction

What the reader makes: a string, an array that grows element by element, and an
object that gets one property after the other.  Both are changed at one place, in
memory that the reader has allocated, so that to the rest of the heap the whole
construction is an allocation.
-/

namespace MuonJs
namespace Script

open Cache (Bytes F64 asBytes fromUtf8)

namespace Context

/-! ## Changes at one place -/

/-- `after` comes from `before` by changes at the place and by allocations, and new
objects have the same prototype. -/
structure Edits (place : ℕ) (before after : Context) : Prop where
  changes : Changes (some place) before after
  proto : after.objectProto = before.objectProto

/-- What is written to memory that was free before is an allocation. -/
theorem Adds.edit {before middle after : Context} {place : ℕ} (adds : Adds before middle)
    (isNew : before.mem.offset ≤ place) (edits : Edits place middle after) : Adds before after where
  changes :=
    { wellFormed := fun wellFormed =>
        edits.changes.wellFormed (adds.changes.wellFormed wellFormed)
      offset := adds.changes.offset.trans edits.changes.offset
      cells := fun address inUse _ => by
        have other : some place ≠ some address := by
          intro same
          cases same
          omega
        rw [edits.changes.cells address (inUse.trans_le adds.changes.offset) other,
          adds.changes.cells address inUse (Option.some_ne_none _).symm]
      maps := fun address inUse _ => by
        have other : some place ≠ some address := by
          intro same
          cases same
          omega
        rw [edits.changes.maps address (inUse.trans_le adds.changes.offset) other,
          adds.changes.maps address inUse (Option.some_ne_none _).symm]
      atoms := fun id text isText => edits.changes.atoms id text (adds.changes.atoms id text isText) }
  proto := edits.proto.trans adds.proto

/-- The same with an allocation before. -/
theorem Edits.after {before middle after : Context} {place : ℕ} (adds : Adds before middle)
    (edits : Edits place middle after) : Edits place before after :=
  ⟨(adds.changes.anywhere _).trans edits.changes, edits.proto.trans adds.proto⟩

/-! ## Strings -/

/-- A new string. -/
theorem newString_of_room {ctx : Context} {text : Bytes} {bytes names : ℕ}
    (room : ctx.Room (text.length + 16 + bytes) names) :
    ∃ address after, ctx.newString text = (.ptr address, after) ∧ Adds ctx after ∧
      after.Room bytes names ∧ ctx.mem.offset ≤ address ∧
      after.heap address = some (.string text) := by
  obtain ⟨address, after, allocated, adds, roomAfter, isNew, -, stored⟩ :=
    allocCell_of_room (.string text) (by omega : 0 < 8 + text.length + 1)
      (room.mono (by omega : 8 + text.length + 1 + 7 + bytes ≤ _) le_rfl)
  have isAlloc : ctx.allocString text = some (address, after) := allocated
  refine ⟨address, after, ?_, adds, roomAfter, isNew, stored⟩
  rw [newString, isAlloc]

/-! ## Arrays -/

/-- An array of these values, whose elements fill its capacity. -/
structure Growing (ctx : Context) (address : ℕ) (obj : HeapObject) (values : List JSValue) : Prop
    extends ctx.HoldsItems address obj values where
  capacity : (obj.elements.getD []).length = obj.arrayCap.toNat
  fits : values.length ≤ obj.arrayCap.toNat

/-- Memory set aside for the next growth of an array, when every element before it
has paid its share. -/
def credit (obj : HeapObject) : ℕ := 32 * obj.arrayLen.toNat - 16 * obj.arrayCap.toNat

theorem Growing.mono {ctx after : Context} {address : ℕ} {obj : HeapObject}
    {values : List JSValue} (wellFormed : ctx.WellFormed) (changes : Changes none ctx after)
    (growing : ctx.Growing address obj values) : after.Growing address obj values :=
  { growing.toHoldsItems.mono wellFormed changes (Option.some_ne_none _).symm with
    capacity := growing.capacity
    fits := growing.fits }

/-- A new array is empty. -/
theorem jsNewArray_of_room {ctx : Context} {arrays : Json.ArrayDefaults}
    (isSet : arrays.proto ≠ .undefined) {bytes names : ℕ} (room : ctx.Room (87 + bytes) names) :
    ∃ address obj after, jsNewArray arrays ctx = (.ptr address, after) ∧ Adds ctx after ∧
      after.Room bytes names ∧ ctx.mem.offset ≤ address ∧ address < after.mem.offset ∧
      after.Growing address obj [] ∧ obj.proto = arrays.proto ∧ credit obj = 0 := by
  obtain ⟨address, middle, allocated, adds, roomAfter, isNew, inUse, stored⟩ :=
    allocCell_of_room (.object ⟨decide (arrayClass = arrayClass), arrayClass, .null, [], 0, 0, 0,
      none⟩) (by decide : 0 < 80) room
  have created : ctx.newObject arrayClass = some (.ptr address, middle) := by
    have isNull : (if arrayClass = objectClass ∧ ctx.objectProto ≠ .undefined then ctx.objectProto
        else .null) = JSValue.null := if_neg fun both => absurd both.1 (by decide)
    rw [newObject]
    dsimp only
    rw [isNull, allocated]
    rfl
  have edits : Edits address middle
      (middle.putObject address ⟨true, arrayClass, arrays.proto, [], 0, 0, 0, none⟩) :=
    ⟨putObject_changes inUse _, rfl⟩
  refine ⟨address, ⟨true, arrayClass, arrays.proto, [], 0, 0, 0, none⟩, _, ?_,
    adds.edit isNew edits, ⟨roomAfter.memory, roomAfter.atoms⟩, isNew,
    inUse.trans_le edits.changes.offset, ?_, rfl, rfl⟩
  · have isObject : middle.objectPtr (.ptr address) = some (address,
        ⟨decide (arrayClass = arrayClass), arrayClass, .null, [], 0, 0, 0, none⟩) := by
      rw [objectPtr, stored]
    rw [jsNewArray, created]
    dsimp only
    rw [if_neg isSet, setObjectProto, isObject]
    rfl
  · exact ⟨⟨Function.update_self _ _ _, rfl, rfl, rfl, rfl, rfl, rfl⟩, rfl, le_rfl⟩

/-- The capacity after a growth. -/
def nextCapacity (len : ℕ) : ℕ := if len = 0 then 4 else 2 * len

/-- A full array is grown. -/
theorem arrayGrow_of_room {ctx : Context} {address : ℕ} {obj : HeapObject}
    {values : List JSValue} (growing : ctx.Growing address obj values)
    (isFull : obj.arrayCap.toNat = values.length) (isShort : values.length < 2 ^ 31)
    {bytes names : ℕ} (room : ctx.Room (8 * nextCapacity values.length + 7 + bytes) names) :
    ∃ after elements, ctx.arrayGrow obj (values.length + 1) =
        some ({ obj with
          elements := some (values ++ elements)
          arrayCap := UInt32.ofNat (nextCapacity values.length) }, after) ∧
      Adds ctx after ∧ after.heap = ctx.heap ∧ after.Room bytes names ∧
      values.length + elements.length = nextCapacity values.length := by
  have isCapacity : max (if obj.arrayCap.toNat = 0 then 4 else obj.arrayCap.toNat * 2)
      (values.length + 1) = nextCapacity values.length := by
    rw [isFull, nextCapacity]
    split <;> omega
  have isKept : (obj.elements.getD []).take obj.arrayLen.toNat = values := by
    rw [growing.len, growing.items]
  obtain ⟨place, mem, isAlloc, fits⟩ := alloc_of_room (room.mono
    (by omega : nextCapacity values.length * 8 + 7 + bytes ≤ _) le_rfl)
  have isGrown : ctx.arrayGrow obj (values.length + 1) =
      some ({ obj with
        elements := some (values ++
          List.replicate (nextCapacity values.length - values.length) .undefined)
        arrayCap := UInt32.ofNat (nextCapacity values.length) }, { ctx with mem := mem }) := by
    rw [arrayGrow]
    dsimp only
    rw [isCapacity, isAlloc, isKept]
    rfl
  refine ⟨_, _, isGrown, ⟨arrayGrow_changes isGrown, rfl⟩, rfl, ⟨fits, room.atoms⟩, ?_⟩
  rw [List.length_replicate, nextCapacity]
  split <;> omega

theorem nextCapacity_lt {len : ℕ} (isShort : len < 2 ^ 31) : nextCapacity len < 2 ^ 32 := by
  rw [nextCapacity]
  split <;> omega

/-- The object after an element is put behind the values. -/
def pushed (obj : HeapObject) (values elements : List JSValue) (val : JSValue) : HeapObject :=
  { obj with
    elements := some ((values ++ elements).set values.length val)
    arrayLen := UInt32.ofNat (values.length + 1) }

/-- An element is put behind the values where there is capacity. -/
theorem Growing.putElement {ctx : Context} {address : ℕ} {obj : HeapObject}
    {values elements : List JSValue} (isArray : obj.isArray = true)
    (isClass : obj.classId = arrayClass) (noProps : obj.props = []) (noCount : obj.propCount = 0)
    (capacity : values.length + elements.length = obj.arrayCap.toNat)
    (isRoom : 0 < elements.length) (isShort : values.length < 2 ^ 31) (val : JSValue) :
    (ctx.putObject address (pushed obj values elements val)).Growing address
      (pushed obj values elements val) (values ++ [val]) := by
  obtain ⟨first, others, rfl⟩ : ∃ first others, elements = first :: others := by
    cases elements with
    | nil => cases isRoom
    | cons first others => exact ⟨first, others, rfl⟩
  have isSet : (values ++ first :: others).set values.length val = values ++ val :: others := by
    rw [List.set_append_right _ _ le_rfl, Nat.sub_self, List.set_cons_zero]
  have isLength : (values ++ [val]).length = values.length + 1 := by
    rw [List.length_append, List.length_singleton]
  refine ⟨⟨Function.update_self _ _ _, isArray, isClass, noProps, noCount, ?_, ?_⟩, ?_, ?_⟩
  · rw [isLength]
    exact UInt32.toNat_ofNat_of_lt' (show _ < 2 ^ 32 by omega)
  · change ((values ++ first :: others).set values.length val).take _ = _
    rw [isSet, isLength, List.take_length_add_append, List.take_succ_cons, List.take_zero]
  · change ((values ++ first :: others).set values.length val).length = _
    rw [List.length_set, List.length_append]
    exact capacity
  · rw [isLength]
    change _ ≤ obj.arrayCap.toNat
    rw [List.length_cons] at capacity
    omega

/-- The step of a push, once there is capacity. -/
theorem jsArrayPush_eq {ctx middle : Context} {address : ℕ} {obj grown : HeapObject}
    {values elements : List JSValue} (isObject : ctx.objectPtr (.ptr address) = some (address, obj))
    (isArray : obj.isArray = true) (isEnd : obj.arrayLen.toNat = values.length)
    (isGrown : (if obj.arrayCap.toNat < values.length + 1 then
      ctx.arrayGrow obj (values.length + 1) else some (obj, ctx)) = some (grown, middle))
    (isElements : grown.elements = some (values ++ elements))
    (sameLength : grown.arrayLen = obj.arrayLen) (val : JSValue) :
    ctx.jsArrayPush (.ptr address) val = (.int (obj.arrayLen + 1).toInt32,
      middle.putObject address (pushed grown values elements val)) := by
  have isFilled : (values ++ elements).take grown.arrayLen.toNat ++
      List.replicate (obj.arrayLen.toNat - grown.arrayLen.toNat) .undefined ++
      (values ++ elements).drop obj.arrayLen.toNat = values ++ elements := by
    rw [sameLength, Nat.sub_self, List.replicate_zero, List.append_nil, List.take_append_drop]
  have isSet : ctx.arraySet address obj obj.arrayLen val =
      (true, middle.putObject address (pushed grown values elements val)) := by
    rw [arraySet, if_neg (UInt32.lt_irrefl _)]
    dsimp only
    rw [isEnd, isGrown]
    dsimp only
    rw [isElements]
    dsimp only
    rw [isEnd] at isFilled
    rw [isFilled]
    rfl
  rw [jsArrayPush, isObject]
  dsimp only
  rw [if_pos isArray, isSet]
  rfl

/-- An element is pushed to an array under construction. -/
theorem jsArrayPush_of_room {ctx : Context} {address : ℕ} {obj : HeapObject}
    {values : List JSValue} (wellFormed : ctx.WellFormed)
    (growing : ctx.Growing address obj values) (isShort : values.length < 2 ^ 31) (val : JSValue)
    {bytes names : ℕ} (room : ctx.Room (39 + credit obj + bytes) names) :
    ∃ count obj' after, ctx.jsArrayPush (.ptr address) val = (.int count, after) ∧
      Edits address ctx after ∧ after.Growing address obj' (values ++ [val]) ∧
      obj'.proto = obj.proto ∧ after.Room (credit obj' + bytes) names := by
  have inUse := wellFormed.inUse growing.stored
  have isEnd : obj.arrayLen.toNat = values.length := growing.len
  have isNext : (UInt32.ofNat (values.length + 1)).toNat = values.length + 1 :=
    UInt32.toNat_ofNat_of_lt' (show _ < 2 ^ 32 by omega)
  have fits := growing.fits
  by_cases isFull : obj.arrayCap.toNat = values.length
  · have isCapacity : (UInt32.ofNat (nextCapacity values.length)).toNat =
        nextCapacity values.length :=
      UInt32.toNat_ofNat_of_lt' (nextCapacity_lt isShort)
    have pays : 8 * nextCapacity values.length + 7 +
        (32 * (values.length + 1) - 16 * nextCapacity values.length + bytes) ≤
        39 + credit obj + bytes := by
      rw [credit, isEnd, isFull, nextCapacity]
      split <;> omega
    obtain ⟨middle, elements, isGrown, adds, -, roomAfter, isLength⟩ :=
      arrayGrow_of_room growing isFull isShort (room.mono pays le_rfl)
    have isRoom : 0 < elements.length := by
      rw [nextCapacity] at isLength
      split at isLength <;> omega
    have isNeeded : obj.arrayCap.toNat < values.length + 1 := by omega
    refine ⟨_, _, _, jsArrayPush_eq growing.isObject growing.isArray isEnd
        ((if_pos isNeeded).trans isGrown) rfl rfl val, ?_,
      @Growing.putElement middle address
        { obj with
          elements := some (values ++ elements)
          arrayCap := UInt32.ofNat (nextCapacity values.length) } values elements growing.isArray
        growing.isClass growing.noProps growing.noCount (isLength.trans isCapacity.symm) isRoom
        isShort val, rfl, ?_⟩
    · exact .after adds ⟨putObject_changes (inUse.trans_le adds.changes.offset) _, rfl⟩
    · refine Room.mono ⟨roomAfter.memory, roomAfter.atoms⟩ ?_ le_rfl
      change 32 * (UInt32.ofNat (values.length + 1)).toNat -
        16 * (UInt32.ofNat (nextCapacity values.length)).toNat + bytes ≤ _
      rw [isNext, isCapacity]
  · obtain ⟨elements, isElements, isLength⟩ : ∃ elements,
        obj.elements = some (values ++ elements) ∧
          values.length + elements.length = obj.arrayCap.toNat := by
      have capacity := growing.capacity
      have items := growing.items
      cases stored : obj.elements with
      | none =>
          rw [stored] at capacity
          exact absurd capacity (by change ¬0 = _; omega)
      | some all =>
          rw [stored] at capacity items
          refine ⟨all.drop values.length, ?_, ?_⟩
          · have isSplit := List.take_append_drop values.length all
            rw [show all.take values.length = values from items] at isSplit
            rw [isSplit]
          · rw [List.length_drop]
            change all.length = _ at capacity
            omega
    have notGrown : (if obj.arrayCap.toNat < values.length + 1 then
        ctx.arrayGrow obj (values.length + 1) else some (obj, ctx)) = some (obj, ctx) :=
      if_neg (by omega)
    refine ⟨_, _, _, jsArrayPush_eq growing.isObject growing.isArray isEnd notGrown isElements rfl val,
      ⟨putObject_changes inUse _, rfl⟩,
      Growing.putElement growing.isArray growing.isClass growing.noProps growing.noCount isLength
        (by omega) isShort val, rfl, ?_⟩
    · have same : (ctx.putObject address (pushed obj values elements val)).Room
          (39 + credit obj + bytes) names := ⟨room.memory, room.atoms⟩
      refine same.mono ?_ le_rfl
      change 32 * (UInt32.ofNat (values.length + 1)).toNat - 16 * obj.arrayCap.toNat + bytes ≤ _
      rw [isNext, credit, isEnd]
      omega

/-! ## Objects -/

/-- A plain object that gets one property after the other; it has no side map
before it needs one. -/
structure Filling (ctx : Context) (address : ℕ) (obj : HeapObject)
    (map : OrderedMap Bytes JSValue) : Prop extends ctx.Holds address obj map where
  isClass : obj.classId = objectClass
  noMap : obj.propCount ≤ propMapThreshold → ctx.propMaps address = none

theorem Filling.mono {ctx after : Context} {address : ℕ} {obj : HeapObject}
    {map : OrderedMap Bytes JSValue} (wellFormed : ctx.WellFormed)
    (changes : Changes none ctx after) (filling : ctx.Filling address obj map) :
    after.Filling address obj map :=
  { filling.toHolds.mono wellFormed changes (Option.some_ne_none _).symm with
    isClass := filling.isClass
    noMap := fun few => by
      rw [changes.maps address (wellFormed.inUse filling.stored) (Option.some_ne_none _).symm, filling.noMap few] }

/-- A property that is set is in the map. -/
theorem Filling.set {ctx after : Context} {address : ℕ} {obj obj' : HeapObject}
    {map : OrderedMap Bytes JSValue} {name : Bytes} {key : PropKey} {value : JSValue}
    (filling : ctx.Filling address obj map) (wellFormed : ctx.WellFormed)
    (isName : ctx.Names name key) (safely : ctx.AddsSafely address obj key)
    (isSet : ctx.setPropValue address obj key value = (true, after))
    (stored : after.heap address = some (.object obj')) (isClass : obj'.classId = objectClass)
    (noMap : obj'.propCount ≤ propMapThreshold → after.propMaps address = none) :
    after.Filling address obj' (map.set name value) := by
  obtain ⟨filled, stores, isArray⟩ := filling.setPropValue wellFormed isName value safely
  rw [isSet, if_pos rfl] at stores
  have same : filled = obj' := by
    have both := stores.stored.symm.trans stored
    injection both with isCell
    injection isCell
  subst same
  exact ⟨⟨stores, isArray.trans filling.plain⟩, isClass, noMap⟩

/-- A new object is empty. -/
theorem jsNewObject_of_room {ctx : Context} (wellFormed : ctx.WellFormed) {bytes names : ℕ}
    (room : ctx.Room (87 + bytes) names) :
    ∃ address obj after, ctx.jsNewObject = (.ptr address, after) ∧ Adds ctx after ∧
      after.Room bytes names ∧ ctx.mem.offset ≤ address ∧ address < after.mem.offset ∧
      after.Filling address obj .empty ∧ (obj.proto = ctx.objectProto ∨ obj.proto = .null) := by
  generalize isProto : (if objectClass = objectClass ∧ ctx.objectProto ≠ .undefined then
    ctx.objectProto else .null) = proto
  obtain ⟨address, after, allocated, adds, roomAfter, isNew, inUse, stored⟩ :=
    allocCell_of_room (.object ⟨decide (objectClass = arrayClass), objectClass, proto, [], 0, 0, 0,
      none⟩) (by decide : 0 < 80) room
  obtain ⟨-, -, -, -, sameMaps, -⟩ := allocCell_changes (by decide) allocated
  have created : ctx.newObject objectClass = some (.ptr address, after) := by
    rw [newObject]
    dsimp only
    rw [isProto, allocated]
    rfl
  refine ⟨address, _, after, ?_, adds, roomAfter, isNew, inUse,
    ⟨⟨⟨stored, .nil, fun large => absurd large (Nat.not_lt_zero _)⟩, rfl⟩, rfl, fun _ => ?_⟩, ?_⟩
  · rw [jsNewObject, created]
  · rw [sameMaps]
    exact wellFormed.maps address isNew
  · rw [← isProto]
    split
    · exact .inl rfl
    · exact .inr rfl

theorem allocProperty_of_room {ctx : Context} {bytes names : ℕ}
    (room : ctx.Room (31 + bytes) names) :
    ∃ after, ctx.allocProperty = some after ∧ after.Room bytes names ∧
      after.objectProto = ctx.objectProto := by
  obtain ⟨place, mem, isAlloc, fits⟩ := alloc_of_room (room.mono (by omega : 24 + 7 + bytes ≤ _)
    le_rfl)
  exact ⟨{ ctx with mem := mem }, by rw [allocProperty, isAlloc]; rfl, ⟨fits, room.atoms⟩, rfl⟩

/-- A new property is set on an object under construction. -/
theorem setPropValue_of_room {ctx : Context} {address : ℕ} {obj : HeapObject}
    {map : OrderedMap Bytes JSValue} (wellFormed : ctx.WellFormed)
    (filling : ctx.Filling address obj map) {name : Bytes} {key : PropKey}
    (isName : ctx.Names name key) (isNew : map.get name = none) (value : JSValue)
    {bytes names : ℕ} (room : ctx.Room (31 + bytes) names) :
    ∃ after, ctx.setPropValue address obj key value = (true, after) ∧ Edits address ctx after ∧
      after.Room bytes names ∧
      after.Filling address (obj.append key value) (map.set name value) := by
  have inUse := wellFormed.inUse filling.stored
  have absent : obj.findProp key = none :=
    (filling.findProp_eq wellFormed isName).trans isNew
  obtain ⟨middle, allocated, roomMiddle, sameProto⟩ := allocProperty_of_room room
  have safely : ctx.AddsSafely address obj key := fun _ =>
    ⟨fun isFull => filling.noMap isFull.le, fun _ => by rw [allocated]; nofun⟩
  have changes := setPropValue_changes inUse obj key value
  obtain ⟨sameHeap, sameMaps, -⟩ := allocProperty_kept allocated
  suffices isDone : ∃ after, ctx.setPropValue address obj key value = (true, after) ∧
      after.heap address = some (.object (obj.append key value)) ∧
      after.objectProto = ctx.objectProto ∧ after.Room bytes names ∧
      ((obj.append key value).propCount ≤ propMapThreshold → after.propMaps address = none) by
    obtain ⟨after, isSet, stored, proto, roomAfter, noMap⟩ := isDone
    rw [isSet] at changes
    exact ⟨after, isSet, ⟨changes, proto⟩, roomAfter,
      filling.set wellFormed isName safely isSet stored filling.isClass noMap⟩
  by_cases large : propMapThreshold < obj.propCount
  · obtain ⟨side, isSide, agrees⟩ := filling.sync large
    have hasSide : ctx.sideMap address obj = some side := by
      rw [sideMap, if_pos large, isSide]
    refine ⟨_, setPropValue_of_mapped_absent value hasSide ((agrees key).trans absent) allocated,
      Function.update_self _ _ _, sameProto, ⟨roomMiddle.memory, roomMiddle.atoms⟩, fun few => ?_⟩
    have isCount : (obj.append key value).propCount = min (obj.propCount + 1) (2 ^ 32 - 1) := rfl
    rw [propMapThreshold] at large few
    omega
  · have noSide : ctx.sideMap address obj = none := by
      rw [sideMap, if_neg large]
    refine ⟨_, setPropValue_of_absent value noSide absent allocated, ?_, ?_, ?_, fun few => ?_⟩
    · unfold withAppended
      dsimp only
      split <;> exact Function.update_self _ _ _
    · unfold withAppended
      dsimp only
      split <;> exact sameProto
    · unfold withAppended
      dsimp only
      split <;> exact ⟨roomMiddle.memory, roomMiddle.atoms⟩
    · unfold withAppended
      dsimp only
      rw [if_neg fun both => absurd both.1 (not_lt.mpr few)]
      change middle.propMaps address = none
      rw [sameMaps]
      exact filling.noMap (not_lt.mp large)

/-- A new property is set through the API. -/
theorem jsSetPropertyStr_of_room (engine : Json.Engine) {ctx : Context} {address : ℕ}
    {obj : HeapObject} {map : OrderedMap Bytes JSValue} {cells : Set ℕ}
    (wellFormed : ctx.WellFormed) (filling : ctx.Filling address obj map)
    (unmarked : ctx.Unmarked cells (protoSearchLimit - 1) obj.proto) {name : Bytes}
    (noSetter : Json.isAccessorName name = false → asBytes "__set__" ++ name ∉ map.keys)
    (proper : ProperName name)
    (isText : (fromUtf8 name).isSome) (isNew : map.get name = none) (value : JSValue)
    {bytes names : ℕ} (room : ctx.Room (2 * name.length + 70 + bytes) (2 + names)) :
    ∃ key after, ctx.jsSetPropertyStr engine (.ptr address) name value = (value, after) ∧
      Edits address ctx after ∧ after.Room bytes names ∧
      after.Filling address (obj.append key value) (map.set name value) := by
  have isLength := @length_accessor "__set__" rfl name
  have roomAccessor : ctx.Room ((asBytes "__set__" ++ name).length + 16 +
      (name.length + 16 + (31 + bytes))) (1 + (1 + names)) :=
    room.mono (by omega) (by omega)
  obtain ⟨middle, noAccessor, adds, roomMiddle⟩ :=
    callAccessor_of_holds engine wellFormed filling.toHolds unmarked rfl
      (isAccessorName_set name) noSetter isText [value] roomAccessor
  have wellFormedMiddle := adds.changes.wellFormed wellFormed
  have fillingMiddle := filling.mono wellFormed adds.changes
  obtain ⟨key, isKey, isName, addsKey, roomKey⟩ :=
    keyOf_of_room wellFormedMiddle proper roomMiddle
  obtain ⟨after, isSet, edits, roomAfter, filled⟩ :=
    setPropValue_of_room (addsKey.changes.wellFormed wellFormedMiddle)
      (fillingMiddle.mono wellFormedMiddle addsKey.changes) isName isNew value roomKey
  refine ⟨key, after, ?_, .after (adds.trans addsKey) edits, roomAfter, filled⟩
  have isDone : middle.setPropertyStr (.ptr address) name value = (true, after) := by
    rw [setPropertyStr_eq fillingMiddle.isObject (.of_plain fillingMiddle.plain name), isKey]
    exact isSet
  rw [jsSetPropertyStr, noAccessor]
  dsimp only
  rw [isDone]
  rfl

end Context
end Script
end MuonJs
