import MuonJs.Lib.OrderedMap
import MuonJs.Script.Actions

/-!
# The property store as a finite map

The properties of a plain object are a finite map from names to values in
insertion order, whichever entry point of the context is used.  Two steps break
this: adding a ninth property to an object that has had more than eight before,
since its side map is out of date, and failing to allocate a property of an
object that has a side map, since the map is written first.
-/

namespace MuonJs
namespace Script

open Cache

/-! ## An object and its map -/

namespace Context

/-- The key under which a name is stored. -/
inductive Names (ctx : Context) : Bytes → PropKey → Prop
  | index (idx : UInt32) : Names ctx (natBytes idx.toNat) ⟨.index, idx⟩
  | atom {name : Bytes} {atom : UInt32} (isText : ctx.atomBytes atom = some name)
      (notIndex : parseIndex name = none) (isUtf8 : (fromUtf8 name).isSome) :
      Names ctx name ⟨.atom, atom⟩

theorem atomBytes_eq_some_iff {ctx : Context} {atom : UInt32} {name : Bytes} :
    ctx.atomBytes atom = some name ↔
      ctx.atoms.entries[atom.toNat]? = some (some name) := by
  unfold atomBytes
  exact Option.join_eq_some_iff

/-- A name has one key. -/
theorem Names.key_eq
    {ctx : Context} (wellFormed : ctx.WellFormed) {name : Bytes} {key key' : PropKey}
    (names : ctx.Names name key) (names' : ctx.Names name key') : key = key' := by
  cases names with
  | index idx =>
      generalize sameName : natBytes idx.toNat = name at names'
      cases names' with
      | index idx' =>
          have sameIdx := Cache.natBytes_injective sameName
          rw [UInt32.toNat_inj.mp sameIdx]
      | atom isText notIndex isUtf8 =>
          rw [← sameName, parseIndex_natBytes] at notIndex
          cases notIndex
  | atom isText notIndex isUtf8 =>
      cases names' with
      | index idx' =>
          rw [parseIndex_natBytes] at notIndex
          cases notIndex
      | atom isText' notIndex' isUtf8' =>
          rw [atomBytes_eq_some_iff] at isText isText'
          rw [UInt32.toNat_inj.mp (wellFormed.atoms.distinct _ _ _ isText isText')]

/-- A key has one name. -/
theorem Names.name_eq
    {ctx : Context} {name name' : Bytes} {key : PropKey}
    (names : ctx.Names name key) (names' : ctx.Names name' key) : name = name' := by
  cases names with
  | index idx =>
      cases names'
      rfl
  | atom isText notIndex isUtf8 =>
      cases names' with
      | atom isText' notIndex' isUtf8' =>
          rw [isText, Option.some.injEq] at isText'
          exact isText'

theorem Names.mono
    {before after : Context} {place : Option ℕ} (changes : Changes place before after)
    {name : Bytes} {key : PropKey} (names : before.Names name key) :
    after.Names name key := by
  cases names with
  | index idx => exact .index idx
  | atom isText notIndex isUtf8 => exact .atom (changes.atoms _ _ isText) notIndex isUtf8

/-- A property stands for an entry of the map. -/
def Stands (ctx : Context) (prop : Property) (entry : Bytes × JSValue) : Prop :=
  ctx.Names entry.1 prop.key ∧ prop.value = entry.2

theorem Stands.key_eq_iff
    {ctx : Context} (wellFormed : ctx.WellFormed) {prop : Property}
    {entry : Bytes × JSValue} (stands : ctx.Stands prop entry) {name : Bytes} {key : PropKey}
    (names : ctx.Names name key) : prop.key = key ↔ entry.1 = name := by
  have own := stands.1
  constructor
  · intro same
    rw [same] at own
    exact own.name_eq names
  · intro same
    rw [same] at own
    exact own.key_eq wellFormed names

/-- A large object has a side map with its properties. -/
def Synced (ctx : Context) (address : ℕ) (obj : HeapObject) : Prop :=
  propMapThreshold < obj.propCount → ∃ side, ctx.propMaps address = some side ∧
    ∀ probe : PropKey, side probe.mapKey = obj.findProp probe

/-- Looking a key up gives the value that the property list has. -/
theorem Synced.findPropValue_eq {ctx : Context} {address : ℕ} {obj : HeapObject}
    (sync : ctx.Synced address obj) (key : PropKey) :
    ctx.findPropValue address obj key = obj.findProp key := by
  unfold findPropValue sideMap
  by_cases large : propMapThreshold < obj.propCount
  · obtain ⟨side, isSide, agrees⟩ := sync large
    rw [if_pos large, isSide]
    exact agrees key
  · rw [if_neg large]

/-- The properties of the object at the address are the entries of the map, and its
side map, when it is in use, agrees with them. -/
structure Stores (ctx : Context) (address : ℕ) (obj : HeapObject)
    (map : OrderedMap Bytes JSValue) : Prop where
  stored : ctx.heap address = some (.object obj)
  stands : List.Forall₂ ctx.Stands obj.props map.entries
  sync : propMapThreshold < obj.propCount → ∃ side, ctx.propMaps address = some side ∧
    ∀ key, side key.mapKey = obj.findProp key

/-- The object at the address is plain and holds the entries of the map. -/
structure Holds (ctx : Context) (address : ℕ) (obj : HeapObject)
    (map : OrderedMap Bytes JSValue) : Prop extends ctx.Stores address obj map where
  plain : obj.isArray = false

namespace Stores

variable {ctx : Context} {address : ℕ} {obj : HeapObject} {map : OrderedMap Bytes JSValue}

theorem mono
    {after : Context} (wellFormed : ctx.WellFormed) {place : Option ℕ}
    (changes : Changes place ctx after) (elsewhere : place ≠ some address)
    (stores : ctx.Stores address obj map) : after.Stores address obj map where
  stored := by
    rw [changes.cells address (wellFormed.inUse stores.stored) elsewhere]
    exact stores.stored
  stands := stores.stands.imp fun prop entry stands => ⟨stands.1.mono changes, stands.2⟩
  sync := by
    rw [changes.maps address (wellFormed.inUse stores.stored) elsewhere]
    exact stores.sync

theorem findProp_of_stands
    (wellFormed : ctx.WellFormed) {name : Bytes} {key : PropKey}
    (names : ctx.Names name key) {props : List Property} {entries : List (Bytes × JSValue)}
    (stands : List.Forall₂ ctx.Stands props entries) :
    (props.find? fun prop => prop.key = key).map Property.value =
      (entries.find? fun entry => entry.1 = name).map Prod.snd := by
  induction stands with
  | nil => rfl
  | @cons prop entry props entries stands rest ih =>
      by_cases same : entry.1 = name
      · have sameKey := (stands.key_eq_iff wellFormed names).mpr same
        rw [List.find?_cons_of_pos (by simpa using sameKey),
          List.find?_cons_of_pos (by simpa using same)]
        exact congrArg some stands.2
      · have otherKey := (stands.key_eq_iff wellFormed names).not.mpr same
        rw [List.find?_cons_of_neg (by simpa using otherKey),
          List.find?_cons_of_neg (by simpa using same)]
        exact ih

/-- The property list has the value that the map has. -/
theorem findProp_eq
    (stores : ctx.Stores address obj map) (wellFormed : ctx.WellFormed)
    {name : Bytes} {key : PropKey} (names : ctx.Names name key) :
    obj.findProp key = map.get name :=
  findProp_of_stands wellFormed names stores.stands

theorem overwrite_stands
    (wellFormed : ctx.WellFormed) {name : Bytes} {key : PropKey}
    (names : ctx.Names name key) (value : JSValue) {props : List Property}
    {entries : List (Bytes × JSValue)} (stands : List.Forall₂ ctx.Stands props entries) :
    List.Forall₂ ctx.Stands (HeapObject.overwrite key value props)
      (OrderedMap.overwrite name value entries) := by
  induction stands with
  | nil => exact .nil
  | @cons prop entry props entries stands rest ih =>
      by_cases same : entry.1 = name
      · have sameKey := (stands.key_eq_iff wellFormed names).mpr same
        rw [HeapObject.overwrite, if_pos sameKey, OrderedMap.overwrite, if_pos same]
        exact .cons ⟨stands.1, rfl⟩ rest
      · have otherKey := (stands.key_eq_iff wellFormed names).not.mpr same
        rw [HeapObject.overwrite, if_neg otherKey, OrderedMap.overwrite, if_neg same]
        exact .cons stands ih

theorem erase_stands
    (wellFormed : ctx.WellFormed) {name : Bytes} {key : PropKey}
    (names : ctx.Names name key) {props : List Property}
    {entries : List (Bytes × JSValue)} (stands : List.Forall₂ ctx.Stands props entries) :
    List.Forall₂ ctx.Stands (props.eraseP fun prop => prop.key = key)
      (entries.eraseP fun entry => entry.1 = name) := by
  induction stands with
  | nil => exact .nil
  | @cons prop entry props entries stands rest ih =>
      by_cases same : entry.1 = name
      · have sameKey := (stands.key_eq_iff wellFormed names).mpr same
        rw [List.eraseP_cons_of_pos (by simpa using sameKey),
          List.eraseP_cons_of_pos (by simpa using same)]
        exact rest
      · have otherKey := (stands.key_eq_iff wellFormed names).not.mpr same
        rw [List.eraseP_cons_of_neg (by simpa using otherKey),
          List.eraseP_cons_of_neg (by simpa using same)]
        exact .cons stands ih

theorem exists_entry
    {props : List Property} {entries : List (Bytes × JSValue)}
    (stands : List.Forall₂ ctx.Stands props entries) {prop : Property} (isProp : prop ∈ props) :
    ∃ entry ∈ entries, ctx.Stands prop entry := by
  induction stands with
  | nil => cases isProp
  | cons stands rest ih =>
      rcases List.mem_cons.mp isProp with rfl | later
      · exact ⟨_, List.mem_cons_self, stands⟩
      · obtain ⟨entry, isEntry, entryStands⟩ := ih later
        exact ⟨entry, List.mem_cons_of_mem _ isEntry, entryStands⟩

/-- The properties have distinct keys. -/
theorem keys_distinct
    (wellFormed : ctx.WellFormed) {props : List Property} {entries : List (Bytes × JSValue)}
    (stands : List.Forall₂ ctx.Stands props entries)
    (distinct : (entries.map Prod.fst).Nodup) : (props.map Property.key).Nodup := by
  induction stands with
  | nil => exact List.nodup_nil
  | @cons prop entry props entries stands rest ih =>
      obtain ⟨notLater, restDistinct⟩ := List.nodup_cons.mp distinct
      refine List.nodup_cons.mpr ⟨fun isLater => notLater ?_, ih restDistinct⟩
      obtain ⟨other, isOther, sameKey⟩ := List.mem_map.mp isLater
      obtain ⟨otherEntry, isEntry, otherStands⟩ := exists_entry rest isOther
      have sameName := (otherStands.key_eq_iff wellFormed stands.1).mp sameKey
      exact List.mem_map.mpr ⟨otherEntry, isEntry, sameName⟩

end Stores

theorem Holds.mono
    {ctx after : Context} {address : ℕ} {obj : HeapObject} {map : OrderedMap Bytes JSValue}
    (wellFormed : ctx.WellFormed) {place : Option ℕ}
    (changes : Changes place ctx after) (elsewhere : place ≠ some address)
    (holds : ctx.Holds address obj map) : after.Holds address obj map :=
  ⟨holds.toStores.mono wellFormed changes elsewhere, holds.plain⟩

end Context

/-! ## Lists of properties -/

namespace HeapObject

/-- The value of the first property with a key in a list. -/
def findIn (props : List Property) (key : PropKey) : Option JSValue :=
  (props.find? fun prop => prop.key = key).map Property.value

theorem findIn_cons (prop : Property) (props : List Property) (key : PropKey) :
    findIn (prop :: props) key =
      if prop.key = key then some prop.value else findIn props key := by
  unfold findIn
  split
  · rename_i same
    rw [List.find?_cons_of_pos (by simpa using same)]
    rfl
  · rename_i other
    rw [List.find?_cons_of_neg (by simpa using other)]

theorem findIn_overwrite (key probe : PropKey) (value : JSValue) (props : List Property) :
    findIn (overwrite key value props) probe =
      if probe = key then (findIn props key).map fun _ => value else findIn props probe := by
  induction props with
  | nil =>
      split <;> rfl
  | cons prop props ih =>
      by_cases isKey : prop.key = key
      · rw [overwrite, if_pos isKey, findIn_cons, findIn_cons, findIn_cons, if_pos isKey]
        dsimp only
        rw [isKey]
        by_cases isProbe : probe = key
        · rw [if_pos isProbe.symm, if_pos isProbe]
          rfl
        · rw [if_neg (Ne.symm isProbe), if_neg isProbe, if_neg (Ne.symm isProbe)]
      · rw [overwrite, if_neg isKey, findIn_cons, findIn_cons, findIn_cons, if_neg isKey, ih]
        by_cases isProbe : probe = key
        · rw [if_pos isProbe, if_pos isProbe, if_neg (isProbe ▸ isKey)]
        · rw [if_neg isProbe, if_neg isProbe]

theorem findIn_append (props : List Property) (added : Property) (probe : PropKey) :
    findIn (props ++ [added]) probe =
      (findIn props probe).or (if added.key = probe then some added.value else none) := by
  induction props with
  | nil =>
      rw [List.nil_append, findIn_cons]
      rfl
  | cons prop props ih =>
      rw [List.cons_append, findIn_cons, findIn_cons, ih]
      split <;> rfl

theorem findIn_eq_none_of_not_mem
    {props : List Property} {key : PropKey} (absent : key ∉ props.map Property.key) :
    findIn props key = none := by
  induction props with
  | nil => rfl
  | cons prop props ih =>
      rw [List.map_cons, List.mem_cons, not_or] at absent
      rw [findIn_cons, if_neg (Ne.symm absent.1), ih absent.2]

theorem findIn_erase
    {props : List Property} (distinct : (props.map Property.key).Nodup)
    (key probe : PropKey) :
    findIn (props.eraseP fun prop => prop.key = key) probe =
      if probe = key then none else findIn props probe := by
  induction props with
  | nil => split <;> rfl
  | cons prop props ih =>
      obtain ⟨notLater, restDistinct⟩ := List.nodup_cons.mp distinct
      by_cases isKey : prop.key = key
      · rw [List.eraseP_cons_of_pos (by simpa using isKey), findIn_cons, isKey]
        by_cases isProbe : probe = key
        · rw [if_pos isProbe, isProbe, ← isKey]
          exact findIn_eq_none_of_not_mem notLater
        · rw [if_neg isProbe, if_neg (Ne.symm isProbe)]
      · rw [List.eraseP_cons_of_neg (by simpa using isKey), findIn_cons, findIn_cons,
          ih restDistinct]
        by_cases isProbe : probe = key
        · rw [if_pos isProbe, if_pos isProbe, if_neg (isProbe ▸ isKey)]
        · rw [if_neg isProbe, if_neg isProbe]

theorem foldl_mapOfProps
    {props : List Property} (distinct : (props.map Property.key).Nodup) (start : PropMap)
    (key : PropKey) :
    (props.foldl
        (fun (map : PropMap) prop => Function.update map prop.key.mapKey (some prop.value))
        start) key.mapKey = (findIn props key).or (start key.mapKey) := by
  induction props generalizing start with
  | nil => rfl
  | cons prop props ih =>
      obtain ⟨notLater, restDistinct⟩ := List.nodup_cons.mp distinct
      rw [List.foldl_cons, ih restDistinct, findIn_cons]
      by_cases isKey : prop.key = key
      · have absent : findIn props key = none := by
          rw [← isKey]
          exact findIn_eq_none_of_not_mem notLater
        rw [if_pos isKey, absent, isKey, Function.update_self]
        rfl
      · rw [if_neg isKey,
          Function.update_of_ne fun same => isKey (PropKey.mapKey_injective same).symm]

/-- The side map made of properties with distinct keys agrees with them. -/
theorem mapOfProps_eq
    {props : List Property} (distinct : (props.map Property.key).Nodup) (key : PropKey) :
    Context.mapOfProps props key.mapKey = findIn props key := by
  unfold Context.mapOfProps
  rw [foldl_mapOfProps distinct, Option.or_none]

variable {obj : HeapObject} {key : PropKey}

theorem findProp_overwrite
    (present : obj.findProp key ≠ none) (value : JSValue) (probe : PropKey) :
    findProp { obj with props := overwrite key value obj.props } probe =
      if probe = key then some value else obj.findProp probe := by
  obtain ⟨old, isOld⟩ := Option.ne_none_iff_exists'.mp present
  change findIn (overwrite key value obj.props) probe = _
  rw [findIn_overwrite, show findIn obj.props key = some old from isOld]
  rfl

theorem findProp_append
    (absent : obj.findProp key = none) (value : JSValue) (probe : PropKey) :
    (obj.append key value).findProp probe =
      if probe = key then some value else obj.findProp probe := by
  change findIn (obj.props ++ [⟨key, value⟩]) probe = _
  rw [findIn_append]
  by_cases isKey : probe = key
  · subst isKey
    rw [if_pos rfl, if_pos rfl]
    change (obj.findProp probe).or _ = _
    rw [absent]
    rfl
  · rw [if_neg isKey, if_neg (Ne.symm isKey), Option.or_none]
    rfl

theorem append_distinct
    (distinct : (obj.props.map Property.key).Nodup) (absent : obj.findProp key = none)
    (value : JSValue) : ((obj.append key value).props.map Property.key).Nodup := by
  have notListed : key ∉ obj.props.map Property.key := by
    intro isListed
    obtain ⟨prop, isProp, sameKey⟩ := List.mem_map.mp isListed
    have notFound := Option.map_eq_none_iff.mp absent
    rw [List.find?_eq_none] at notFound
    exact notFound prop isProp (decide_eq_true sameKey)
  change ((obj.props ++ [(⟨key, value⟩ : Property)]).map Property.key).Nodup
  rw [List.map_append, List.map_cons, List.map_nil, List.nodup_append]
  refine ⟨distinct, List.nodup_singleton _, ?_⟩
  intro listed isListed last isLast same
  rw [same, List.mem_singleton.mp isLast] at isListed
  exact notListed isListed

end HeapObject

/-! ## One property set or deleted -/

namespace Context

theorem Names.of_atoms
    {before after : Context} (sameAtoms : after.atoms = before.atoms) {name : Bytes}
    {key : PropKey} (names : before.Names name key) : after.Names name key := by
  cases names with
  | index idx => exact .index idx
  | atom isText notIndex isUtf8 =>
      refine .atom ?_ notIndex isUtf8
      rw [atomBytes, sameAtoms]
      exact isText

theorem Stands.of_atoms
    {before after : Context} (sameAtoms : after.atoms = before.atoms) {prop : Property}
    {entry : Bytes × JSValue} (stands : before.Stands prop entry) : after.Stands prop entry :=
  ⟨stands.1.of_atoms sameAtoms, stands.2⟩

/-- Adding the property keeps the side map right: an object of eight properties
has none from before, and memory is left when there is one. -/
def AddsSafely (ctx : Context) (address : ℕ) (obj : HeapObject) (key : PropKey) : Prop :=
  obj.findProp key = none →
    (obj.propCount = propMapThreshold → ctx.propMaps address = none) ∧
      (propMapThreshold < obj.propCount → ctx.allocProperty ≠ none)

theorem allocProperty_putMap (ctx : Context) (address : ℕ) (map : PropMap) :
    (ctx.putMap address map).allocProperty =
      ctx.allocProperty.map fun after => after.putMap address map := by
  unfold allocProperty
  rw [Option.map_map]
  rfl

theorem allocProperty_kept
    {ctx after : Context} (allocated : ctx.allocProperty = some after) :
    after.heap = ctx.heap ∧ after.propMaps = ctx.propMaps ∧ after.atoms = ctx.atoms := by
  unfold allocProperty at allocated
  obtain ⟨⟨place, mem⟩, -, rfl⟩ := Option.map_eq_some_iff.mp allocated
  exact ⟨rfl, rfl, rfl⟩

section Values

variable {ctx : Context} {address : ℕ} {obj : HeapObject} {key : PropKey} (value : JSValue)

theorem setPropValue_of_mapped_present
    {side : PropMap} (hasSide : ctx.sideMap address obj = some side)
    (present : side key.mapKey ≠ none) :
    ctx.setPropValue address obj key value =
      (true, (ctx.putMap address (Function.update side key.mapKey (some value))).putObject address
        { obj with props := HeapObject.overwrite key value obj.props }) := by
  unfold setPropValue
  rw [hasSide]
  exact if_pos (Option.isSome_iff_ne_none.mpr present)

theorem setPropValue_of_mapped_absent
    {side : PropMap} (hasSide : ctx.sideMap address obj = some side)
    (absent : side key.mapKey = none) {after : Context}
    (allocated : ctx.allocProperty = some after) :
    ctx.setPropValue address obj key value =
      (true, (after.putMap address (Function.update side key.mapKey (some value))).putObject
        address (obj.append key value)) := by
  unfold setPropValue
  rw [hasSide]
  dsimp only
  rw [if_neg (by rw [absent]; exact Bool.false_ne_true), allocProperty_putMap, allocated]
  rfl

theorem setPropValue_of_present
    (noSide : ctx.sideMap address obj = none) (present : obj.findProp key ≠ none) :
    ctx.setPropValue address obj key value =
      (true, ctx.putObject address
        { obj with props := HeapObject.overwrite key value obj.props }) := by
  unfold setPropValue
  rw [noSide]
  exact if_pos (Option.isSome_iff_ne_none.mpr present)

theorem setPropValue_of_no_memory
    (noSide : ctx.sideMap address obj = none) (absent : obj.findProp key = none)
    (noMemory : ctx.allocProperty = none) :
    ctx.setPropValue address obj key value = (false, ctx) := by
  unfold setPropValue
  rw [noSide]
  dsimp only
  rw [if_neg (by rw [absent]; exact Bool.false_ne_true), noMemory]

/-- The context after a property is added to an object without a side map. -/
def withAppended (after : Context) (address : ℕ) (obj : HeapObject) : Context :=
  let ctx := after.putObject address obj
  if propMapThreshold < obj.propCount ∧ (ctx.propMaps address).isNone then
    ctx.putMap address (mapOfProps obj.props)
  else ctx

theorem setPropValue_of_absent
    (noSide : ctx.sideMap address obj = none) (absent : obj.findProp key = none)
    {after : Context} (allocated : ctx.allocProperty = some after) :
    ctx.setPropValue address obj key value =
      (true, after.withAppended address (obj.append key value)) := by
  unfold setPropValue withAppended
  rw [noSide]
  dsimp only
  rw [if_neg (by rw [absent]; exact Bool.false_ne_true), allocated]
  dsimp only
  split <;> rfl

/-- The context after a key is removed from the side map. -/
def withoutSide (ctx : Context) (address : ℕ) (obj : HeapObject) (key : PropKey) : Context :=
  match ctx.sideMap address obj with
  | some map => ctx.putMap address (Function.update map key.mapKey none)
  | none => ctx

theorem deletePropValue_eq :
    ctx.deletePropValue address obj key =
      if (obj.findProp key).isSome then
        (true, (ctx.withoutSide address obj key).putObject address (obj.unlink key))
      else (false, ctx.withoutSide address obj key) := by
  unfold deletePropValue withoutSide
  cases ctx.sideMap address obj <;> rfl

/-- A side map that agrees with the properties agrees after one is set. -/
theorem update_agrees
    {side : PropMap} {props : List Property}
    (agrees : ∀ probe : PropKey, side probe.mapKey = HeapObject.findIn props probe)
    (key : PropKey) (found : Option JSValue) (probe : PropKey) :
    Function.update side key.mapKey found probe.mapKey =
      if probe = key then found else HeapObject.findIn props probe := by
  by_cases isKey : probe = key
  · rw [if_pos isKey, isKey, Function.update_self]
  · rw [if_neg isKey, ← agrees probe,
      Function.update_of_ne fun same => isKey (PropKey.mapKey_injective same)]

/-- Setting a property overwrites or appends it, or finds no memory. -/
theorem setPropValue_spec
    (sync : ctx.Synced address obj) (distinct : (obj.props.map Property.key).Nodup)
    (safely : ctx.AddsSafely address obj key) :
    ctx.setPropValue address obj key value = (false, ctx) ∨
    ∃ after obj', ctx.setPropValue address obj key value = (true, after) ∧
      after.atoms = ctx.atoms ∧ after.heap address = some (.object obj') ∧
      after.Synced address obj' ∧
      (∀ probe, obj'.findProp probe = if probe = key then some value else obj.findProp probe) ∧
      (obj.findProp key ≠ none ∧
          obj' = { obj with props := HeapObject.overwrite key value obj.props } ∨
        obj.findProp key = none ∧ obj' = obj.append key value) := by
  by_cases large : propMapThreshold < obj.propCount
  · obtain ⟨side, isSide, agrees⟩ := sync large
    have hasSide : ctx.sideMap address obj = some side := by
      rw [sideMap, if_pos large, isSide]
    have updated := update_agrees agrees key (some value)
    by_cases absent : obj.findProp key = none
    · have finds := HeapObject.findProp_append absent value
      obtain ⟨after, allocated⟩ := Option.ne_none_iff_exists'.mp ((safely absent).2 large)
      obtain ⟨-, -, sameAtoms⟩ := allocProperty_kept allocated
      exact .inr ⟨_, _,
        setPropValue_of_mapped_absent value hasSide ((agrees key).trans absent) allocated,
        sameAtoms, Function.update_self _ _ _,
        fun _ => ⟨_, Function.update_self _ _ _, fun probe =>
          (updated probe).trans (finds probe).symm⟩, finds, .inr ⟨absent, rfl⟩⟩
    · have finds := HeapObject.findProp_overwrite absent value
      exact .inr ⟨_, _,
        setPropValue_of_mapped_present value hasSide (by rw [agrees key]; exact absent),
        rfl, Function.update_self _ _ _,
        fun _ => ⟨_, Function.update_self _ _ _, fun probe =>
          (updated probe).trans (finds probe).symm⟩, finds, .inl ⟨absent, rfl⟩⟩
  · have noSide : ctx.sideMap address obj = none := by
      rw [sideMap, if_neg large]
    by_cases absent : obj.findProp key = none
    · cases allocated : ctx.allocProperty with
      | none => exact .inl (setPropValue_of_no_memory value noSide absent allocated)
      | some after =>
          obtain ⟨-, sameMaps, sameAtoms⟩ := allocProperty_kept allocated
          refine .inr ⟨_, _, setPropValue_of_absent value noSide absent allocated, ?_, ?_,
            fun nowLarge => ?_, HeapObject.findProp_append absent value, .inr ⟨absent, rfl⟩⟩
          · unfold withAppended
            dsimp only
            split <;> exact sameAtoms
          · unfold withAppended
            dsimp only
            split <;> exact Function.update_self _ _ _
          · have atThreshold : obj.propCount = propMapThreshold := by
              have count : (obj.append key value).propCount =
                min (obj.propCount + 1) (2 ^ 32 - 1) := rfl
              omega
            have noMap : after.propMaps address = none := by
              rw [sameMaps]
              exact (safely absent).1 atThreshold
            have made : after.withAppended address (obj.append key value) =
                (after.putObject address (obj.append key value)).putMap address
                  (mapOfProps (obj.append key value).props) := by
              unfold withAppended
              exact if_pos ⟨nowLarge, Option.isNone_iff_eq_none.mpr noMap⟩
            rw [made]
            exact ⟨_, Function.update_self _ _ _,
              HeapObject.mapOfProps_eq (HeapObject.append_distinct distinct absent value)⟩
    · exact .inr ⟨_, _, setPropValue_of_present value noSide absent, rfl,
        Function.update_self _ _ _, fun nowLarge => absurd nowLarge large,
        HeapObject.findProp_overwrite absent value, .inl ⟨absent, rfl⟩⟩

/-- Deleting a property unlinks it if there is one. -/
theorem deletePropValue_spec
    (sync : ctx.Synced address obj) (distinct : (obj.props.map Property.key).Nodup)
    (key : PropKey) :
    ∃ after obj', ctx.deletePropValue address obj key = ((obj.findProp key).isSome, after) ∧
      after.atoms = ctx.atoms ∧
      (ctx.heap address = some (.object obj) → after.heap address = some (.object obj')) ∧
      after.Synced address obj' ∧
      (∀ probe, obj'.findProp probe = if probe = key then none else obj.findProp probe) ∧
      (obj.findProp key ≠ none ∧ obj' = obj.unlink key ∨
        obj.findProp key = none ∧ obj' = obj) := by
  have finds : ∀ probe, (obj.unlink key).findProp probe =
      if probe = key then none else obj.findProp probe := HeapObject.findIn_erase distinct key
  have sameHeap : (ctx.withoutSide address obj key).heap = ctx.heap := by
    unfold withoutSide
    split <;> rfl
  have sameAtoms : (ctx.withoutSide address obj key).atoms = ctx.atoms := by
    unfold withoutSide
    split <;> rfl
  have erased : propMapThreshold < obj.propCount →
      ∃ side, (ctx.withoutSide address obj key).propMaps address = some side ∧
        ∀ probe : PropKey, side probe.mapKey = (obj.unlink key).findProp probe := by
    intro large
    obtain ⟨side, isSide, agrees⟩ := sync large
    have hasSide : ctx.sideMap address obj = some side := by
      rw [sideMap, if_pos large, isSide]
    unfold withoutSide
    rw [hasSide]
    exact ⟨_, Function.update_self _ _ _, fun probe =>
      (update_agrees agrees key none probe).trans (finds probe).symm⟩
  rw [deletePropValue_eq]
  by_cases present : (obj.findProp key).isSome
  · rw [if_pos present, present]
    exact ⟨_, obj.unlink key, rfl, sameAtoms, fun _ => Function.update_self _ _ _,
      fun large => erased (lt_of_lt_of_le large (Nat.sub_le obj.propCount 1)), finds,
      .inl ⟨Option.isSome_iff_ne_none.mp present, rfl⟩⟩
  · have absent := Option.not_isSome_iff_eq_none.mp present
    have same : ∀ probe, obj.findProp probe = if probe = key then none else obj.findProp probe := by
      intro probe
      split
      · rename_i isKey
        rw [isKey, absent]
      · rfl
    rw [if_neg present, absent]
    refine ⟨_, obj, rfl, sameAtoms, fun stored => by rw [sameHeap]; exact stored,
      fun large => ?_, same, .inr ⟨rfl, rfl⟩⟩
    obtain ⟨side, isSide, agrees⟩ := erased large
    exact ⟨side, isSide, fun probe => (agrees probe).trans ((finds probe).trans (same probe).symm)⟩

end Values

namespace Stores

variable {ctx : Context} {address : ℕ} {obj : HeapObject} {map : OrderedMap Bytes JSValue}

/-- Setting a property sets the name in the map, or fails and keeps it. -/
theorem setPropValue
    (stores : ctx.Stores address obj map) (wellFormed : ctx.WellFormed) {name : Bytes}
    {key : PropKey} (names : ctx.Names name key) (value : JSValue)
    (safely : ctx.AddsSafely address obj key) :
    ∃ obj', (ctx.setPropValue address obj key value).2.Stores address obj'
      (if (ctx.setPropValue address obj key value).1 then map.set name value else map) ∧
      obj'.isArray = obj.isArray := by
  have found := stores.findProp_eq wellFormed names
  have distinct := keys_distinct wellFormed stores.stands map.distinct
  rcases setPropValue_spec value stores.sync distinct safely with
    failed | ⟨after, obj', isSet, sameAtoms, stored, sync, -, isObject⟩
  · rw [failed]
    exact ⟨obj, stores, rfl⟩
  · rw [isSet, if_pos rfl]
    rcases isObject with ⟨present, rfl⟩ | ⟨absent, rfl⟩
    · refine ⟨_, ⟨stored, ?_, sync⟩, rfl⟩
      rw [OrderedMap.entries_set_of_present (found ▸ present)]
      exact (overwrite_stands wellFormed names value stores.stands).imp
        fun _ _ stands => stands.of_atoms sameAtoms
    · refine ⟨_, ⟨stored, ?_, sync⟩, rfl⟩
      rw [OrderedMap.entries_set_of_absent (found.symm.trans absent)]
      have joined : List.Forall₂ ctx.Stands (obj.append key value).props
          (map.entries ++ [(name, value)]) :=
        List.rel_append stores.stands (.cons ⟨names, rfl⟩ .nil)
      exact joined.imp fun _ _ stands => stands.of_atoms sameAtoms

/-- Deleting a property tells whether the name was in the map, and removes it. -/
theorem deletePropValue
    (stores : ctx.Stores address obj map) (wellFormed : ctx.WellFormed) {name : Bytes}
    {key : PropKey} (names : ctx.Names name key) :
    (ctx.deletePropValue address obj key).1 = (map.get name).isSome ∧
      ∃ obj', (ctx.deletePropValue address obj key).2.Stores address obj' (map.erase name) := by
  have found := stores.findProp_eq wellFormed names
  obtain ⟨after, obj', isDeleted, sameAtoms, stored, sync, -, isObject⟩ := deletePropValue_spec
    stores.sync (keys_distinct wellFormed stores.stands map.distinct) key
  rw [isDeleted, ← found]
  rcases isObject with ⟨present, rfl⟩ | ⟨absent, rfl⟩
  · exact ⟨rfl, _, stored stores.stored,
      (erase_stands wellFormed names stores.stands).imp
        fun _ _ stands => stands.of_atoms sameAtoms, sync⟩
  · rw [OrderedMap.erase_of_absent (found.symm.trans absent)]
    exact ⟨rfl, _, stored stores.stored,
      stores.stands.imp fun _ _ stands => stands.of_atoms sameAtoms, sync⟩

end Stores

/-! ## Names -/

/-- A text that is no index, or the digits of one as they are listed. -/
def ProperName (name : Bytes) : Prop :=
  match parseIndex name with
  | some idx => name = natBytes idx.toNat
  | none => (fromUtf8 name).isSome

/-- An atom with a text that is no index. -/
def ProperAtom (ctx : Context) (atom : UInt32) : Prop :=
  ∃ name, ctx.atomBytes atom = some name ∧ parseIndex name = none ∧ (fromUtf8 name).isSome

/-- The key of a name: an index, or the atom of its text. -/
def keyOf (ctx : Context) (name : Bytes) : Option PropKey × Context :=
  match parseIndex name with
  | some idx => (some ⟨.index, idx⟩, ctx)
  | none =>
      ((ctx.internString name).1.map fun atom => ⟨.atom, atom⟩, (ctx.internString name).2)

/-- The key of a name stands for it; a name without a key has no property. -/
theorem keyOf_spec
    {ctx : Context} (wellFormed : ctx.WellFormed)
    (room : ctx.atoms.entries.length < 2 ^ 32) {name : Bytes} (proper : ProperName name) :
    Changes none ctx (ctx.keyOf name).2 ∧
      (∀ key, (ctx.keyOf name).1 = some key → (ctx.keyOf name).2.Names name key) ∧
      ((ctx.keyOf name).1 = none → (ctx.keyOf name).2 = ctx ∧ ∀ key, ¬ctx.Names name key) := by
  unfold ProperName at proper
  unfold keyOf
  cases isIndex : parseIndex name with
  | some idx =>
      rw [isIndex] at proper
      refine ⟨Changes.refl none ctx, ?_, nofun⟩
      rintro key isKey
      cases isKey
      rw [show name = natBytes idx.toNat from proper]
      exact .index idx
  | none =>
      rw [isIndex] at proper
      obtain ⟨changes, isText, notMade⟩ := internString_spec wellFormed room name
      refine ⟨changes, ?_, ?_⟩
      · intro key isKey
        obtain ⟨atom, isAtom, rfl⟩ := Option.map_eq_some_iff.mp isKey
        exact .atom (isText atom isAtom) isIndex proper
      · intro noKey
        obtain ⟨same, notFound⟩ := notMade (Option.map_eq_none_iff.mp noKey)
        refine ⟨same, fun key names => ?_⟩
        cases names with
        | index idx =>
            rw [parseIndex_natBytes] at isIndex
            cases isIndex
        | atom isAtom _ _ =>
            have isFound := (wellFormed.atoms.find_eq_some_iff name _).mpr
              (atomBytes_eq_some_iff.mp isAtom)
            rw [notFound] at isFound
            cases isFound

/-! ## The entry points on an object -/

/-- What one object holds under a key. -/
def own (ctx : Context) (key : PropKey) (isLength : Bool) :
    ℕ → HeapObject → Option JSValue :=
  match key.kind with
  | .atom => ctx.ownAtom key.key isLength
  | .index => ctx.ownIndex key.key

/-- The value of a key that an object does not hold itself. -/
def inheritedValue (ctx : Context) (obj : HeapObject) (key : PropKey) (isLength : Bool) :
    Option JSValue :=
  if obj.proto = .null ∨ obj.proto = .undefined then some .undefined
  else ctx.getFromChain (ctx.own key isLength) (protoSearchLimit - 1) obj.proto

/-- Whether a key that an object does not hold itself is held by a prototype. -/
def inherits (ctx : Context) (obj : HeapObject) (key : PropKey) (isLength : Bool) : Bool :=
  if obj.proto = .null ∨ obj.proto = .undefined then false
  else ctx.hasInChain (fun address obj => (ctx.own key isLength address obj).isSome)
    (protoSearchLimit - 1) obj.proto

/-- A name that is no element and no length, where the object is an array. -/
def NamedBeside (obj : HeapObject) (name : Bytes) : Prop :=
  obj.isArray = true → parseIndex name = none ∧ name ≠ asBytes "length"

theorem NamedBeside.of_plain {obj : HeapObject} (plain : obj.isArray = false) (name : Bytes) :
    NamedBeside obj name :=
  fun isArray => absurd (plain.symm.trans isArray) Bool.false_ne_true

theorem NamedBeside.plain
    {obj : HeapObject} {name : Bytes} (beside : NamedBeside obj name) {idx : UInt32}
    (isIndex : parseIndex name = some idx) : obj.isArray = false := by
  cases isArray : obj.isArray with
  | false => rfl
  | true => cases (beside isArray).1.symm.trans isIndex

theorem NamedBeside.isAtom
    {obj : HeapObject} {name : Bytes} (beside : NamedBeside obj name) {ctx : Context}
    {key : PropKey} (isKey : (ctx.keyOf name).1 = some key) (isArray : obj.isArray = true) :
    key.kind = .atom ∧ decide (name = asBytes "length") = false := by
  obtain ⟨notIndex, notLength⟩ := beside isArray
  rw [keyOf, notIndex] at isKey
  obtain ⟨atom, -, rfl⟩ := Option.map_eq_some_iff.mp isKey
  exact ⟨rfl, decide_eq_false notLength⟩

section Plain

variable {ctx : Context} {val : JSValue} {address : ℕ} {obj : HeapObject}
  (isObject : ctx.objectPtr val = some (address, obj)) (plain : obj.isArray = false)

include isObject in
theorem stringBytes_of_object : ctx.stringBytes val = none := by
  obtain ⟨rfl, stored⟩ := objectPtr_eq_some isObject
  rw [stringBytes, stored]

theorem own_eq_findPropValue
    {key : PropKey} {isLength : Bool}
    (beside : obj.isArray = true → key.kind = .atom ∧ isLength = false) :
    ctx.own key isLength address obj = ctx.findPropValue address obj key := by
  obtain ⟨kind, key⟩ := key
  cases kind with
  | atom => exact if_neg fun isArray => by rw [(beside isArray.1).2] at isArray; cases isArray.2
  | index => exact if_neg fun isArray => by cases (beside isArray.1).1

include isObject in
theorem getFromChain_of_object (key : PropKey) (isLength : Bool) :
    ctx.getFromChain (ctx.own key isLength) protoSearchLimit val =
      (ctx.own key isLength address obj).or (ctx.inheritedValue obj key isLength) := by
  rw [show protoSearchLimit = protoSearchLimit - 1 + 1 from rfl, getFromChain, isObject]
  dsimp only
  cases ctx.own key isLength address obj <;> rfl

include isObject in
theorem hasInChain_of_object (key : PropKey) (isLength : Bool) :
    ctx.hasInChain (fun address obj => (ctx.own key isLength address obj).isSome)
        protoSearchLimit val =
      ((ctx.own key isLength address obj).isSome || ctx.inherits obj key isLength) := by
  rw [show protoSearchLimit = protoSearchLimit - 1 + 1 from rfl, hasInChain, isObject]
  dsimp only
  cases ctx.own key isLength address obj <;> rfl

include isObject in
theorem setPropertyAtomId_eq (atom : UInt32) (value : JSValue) :
    ctx.setPropertyAtomId val atom value =
      ctx.setPropValue address obj ⟨.atom, atom⟩ value := by
  rw [setPropertyAtomId, isObject]

include isObject

include plain in
theorem setPropertyIndex_eq (idx : UInt32) (value : JSValue) :
    ctx.setPropertyIndex val idx value =
      ctx.setPropValue address obj ⟨.index, idx⟩ value := by
  rw [setPropertyIndex, isObject]
  exact if_neg (by rw [plain]; exact Bool.false_ne_true)

theorem setPropertyIndex_of_array
    (isArray : obj.isArray = true) (idx : UInt32) (value : JSValue) :
    ctx.setPropertyIndex val idx value = ctx.arraySet address obj idx value := by
  rw [setPropertyIndex, isObject]
  exact if_pos isArray

theorem deletePropertyIndex_eq
    {idx : UInt32} (beside : ¬(obj.isArray = true ∧ idx < obj.arrayLen)) :
    ctx.deletePropertyIndex val idx = ctx.deletePropValue address obj ⟨.index, idx⟩ := by
  rw [deletePropertyIndex, isObject]
  exact if_neg beside

theorem setPropertyStr_eq {name : Bytes} (beside : NamedBeside obj name) (value : JSValue) :
    ctx.setPropertyStr val name value =
      match (ctx.keyOf name).1 with
      | none => (false, (ctx.keyOf name).2)
      | some key => (ctx.keyOf name).2.setPropValue address obj key value := by
  unfold setPropertyStr keyOf
  rw [isObject]
  dsimp only
  cases isIndex : parseIndex name with
  | some idx => exact setPropertyIndex_eq isObject (beside.plain isIndex) idx value
  | none =>
      dsimp only
      rw [if_neg fun isArray => (beside isArray.1).2 isArray.2]
      obtain ⟨found, after⟩ := ctx.internString name
      cases found <;> rfl

theorem deletePropertyStr_eq {name : Bytes} (beside : NamedBeside obj name) :
    ctx.deletePropertyStr val name =
      match (ctx.keyOf name).1 with
      | none => (false, (ctx.keyOf name).2)
      | some key => (ctx.keyOf name).2.deletePropValue address obj key := by
  unfold deletePropertyStr keyOf
  rw [isObject]
  dsimp only
  cases isIndex : parseIndex name with
  | some idx =>
      exact deletePropertyIndex_eq isObject fun isArray =>
        Bool.false_ne_true ((beside.plain isIndex).symm.trans isArray.1)
  | none =>
      dsimp only
      obtain ⟨found, after⟩ := ctx.internString name
      cases found <;> rfl

theorem getPropertyStr_eq (name : Bytes) :
    ctx.getPropertyStr val name =
      ((ctx.keyOf name).1.bind fun key => (ctx.keyOf name).2.getFromChain
          ((ctx.keyOf name).2.own key (name = asBytes "length")) protoSearchLimit val,
        (ctx.keyOf name).2) := by
  unfold getPropertyStr keyOf
  rw [stringBytes_of_object isObject, ite_self]
  cases parseIndex name with
  | some idx => rfl
  | none =>
      dsimp only
      obtain ⟨found, after⟩ := ctx.internString name
      cases found <;> rfl

theorem hasPropertyStr_eq (name : Bytes) :
    ctx.hasPropertyStr val name =
      ((ctx.keyOf name).1.elim false fun key => (ctx.keyOf name).2.hasInChain
          (fun address obj =>
            ((ctx.keyOf name).2.own key (name = asBytes "length") address obj).isSome)
          protoSearchLimit val,
        (ctx.keyOf name).2) := by
  unfold hasPropertyStr keyOf
  rw [stringBytes_of_object isObject, if_neg fun isString => by cases isString.2]
  cases parseIndex name with
  | some idx => rfl
  | none =>
      dsimp only
      obtain ⟨found, after⟩ := ctx.internString name
      cases found <;> rfl

end Plain

/-- Setting a property fails only without memory for it. -/
theorem allocProperty_of_setPropValue
    {ctx : Context} {address : ℕ} {obj : HeapObject} {key : PropKey} {value : JSValue}
    (fails : (ctx.setPropValue address obj key value).1 = false) : ctx.allocProperty = none := by
  unfold setPropValue at fails
  split at fails
  · dsimp only at fails
    split at fails
    · cases fails
    · split at fails
      · rename_i noMemory
        exact Option.map_eq_none_iff.mpr (Option.map_eq_none_iff.mp noMemory)
      · cases fails
  · split at fails
    · cases fails
    · split at fails
      · assumption
      · dsimp only at fails
        split at fails <;> cases fails

/-- A name is without a key only where there is no memory for its text. -/
theorem allocString_of_keyOf
    {ctx : Context} {name : Bytes} (noKey : (ctx.keyOf name).1 = none) :
    ctx.allocString name = none := by
  unfold keyOf at noKey
  split at noKey
  · cases noKey
  · have notMade := Option.map_eq_none_iff.mp noKey
    unfold internString at notMade
    split at notMade
    · cases notMade
    · split at notMade
      · assumption
      · cases notMade

/-- What reading a name gives on an object that lacks it. -/
def absentValue (ctx : Context) (obj : HeapObject) (name : Bytes) : Option JSValue :=
  (ctx.keyOf name).1.bind fun key =>
    (ctx.keyOf name).2.inheritedValue obj key (name = asBytes "length")

/-- Whether a name that an object lacks is found. -/
def absentHas (ctx : Context) (obj : HeapObject) (name : Bytes) : Bool :=
  (ctx.keyOf name).1.elim false fun key =>
    (ctx.keyOf name).2.inherits obj key (name = asBytes "length")

end Context

/-! ## The map behind an object -/

/-- Whether an operation reports success. -/
def Response.isDone : Response → Bool
  | .success isDone => isDone
  | _ => false

/-- What an operation answers on an object that stands for a map.  Setting fails only
without memory, for the text of a name or the property; a name that is absent is looked
for in the prototypes.  An array has its elements beside the map. -/
def PropertyOp.Answers (op : PropertyOp) (ctx : Context) (obj : HeapObject)
    (map : OrderedMap Bytes JSValue) (response : Response) : Prop :=
  match op with
  | .setStr name _ =>
      ∃ isDone, response = .success isDone ∧
        (isDone = false →
          ctx.allocString name = none ∨ (ctx.keyOf name).2.allocProperty = none)
  | .setAtomId _ _ =>
      ∃ isDone, response = .success isDone ∧ (isDone = false → ctx.allocProperty = none)
  | .setIndex _ _ =>
      ∃ isDone, response = .success isDone ∧
        (isDone = false → obj.isArray = false → ctx.allocProperty = none)
  | .getStr name => response = .value ((map.get name).or (ctx.absentValue obj name))
  | .getAtomId atom =>
      ∃ name, ctx.atomBytes atom = some name ∧
        response = .value ((map.get name).or (ctx.inheritedValue obj ⟨.atom, atom⟩ false))
  | .getIndex idx =>
      obj.isArray = false → response = .value
        ((map.get (natBytes idx.toNat)).or (ctx.inheritedValue obj ⟨.index, idx⟩ false))
  | .hasStr name => response = .present ((map.get name).isSome || ctx.absentHas obj name)
  | .deleteStr name => response = .success (map.get name).isSome
  | .deleteIndex idx =>
      response = .success (decide (obj.isArray = true ∧ idx < obj.arrayLen) ||
        (map.get (natBytes idx.toNat)).isSome)
  | .keys =>
      response = .names (some
        ((if obj.isArray then (List.range obj.arrayLen.toNat).map natBytes else []) ++ map.keys))

/-- The map after an operation: one that reports failure leaves it unchanged, and so
does one on an element of an array. -/
def PropertyOp.effect (op : PropertyOp) (ctx : Context) (obj : HeapObject) (response : Response)
    (map : OrderedMap Bytes JSValue) : OrderedMap Bytes JSValue :=
  if response.isDone then
    match op with
    | .setStr name value => map.set name value
    | .setAtomId atom value =>
        match ctx.atomBytes atom with
        | some name => map.set name value
        | none => map
    | .setIndex idx value => if obj.isArray then map else map.set (natBytes idx.toNat) value
    | .deleteStr name => map.erase name
    | .deleteIndex idx =>
        if obj.isArray = true ∧ idx < obj.arrayLen then map else map.erase (natBytes idx.toNat)
    | .getStr _ | .getAtomId _ | .getIndex _ | .hasStr _ | .keys => map
  else map

/-- The steps that keep the store in order: the names are proper, those of an array no
index and not its length, and a property is added safely. -/
def PropertyOp.Careful (op : PropertyOp) (ctx : Context) (address : ℕ) (obj : HeapObject) :
    Prop :=
  match op with
  | .setStr name _ =>
      (Context.ProperName name ∧ Context.NamedBeside obj name) ∧
        ∀ key, (ctx.keyOf name).1 = some key → (ctx.keyOf name).2.AddsSafely address obj key
  | .setAtomId atom _ => ctx.ProperAtom atom ∧ ctx.AddsSafely address obj ⟨.atom, atom⟩
  | .setIndex idx _ => obj.isArray = false → ctx.AddsSafely address obj ⟨.index, idx⟩
  | .getStr name | .hasStr name | .deleteStr name =>
      Context.ProperName name ∧ Context.NamedBeside obj name
  | .getAtomId atom => ctx.ProperAtom atom
  | .getIndex _ | .deleteIndex _ | .keys => True

namespace Context.Stores

variable {ctx : Context} {address : ℕ} {obj : HeapObject} {map : OrderedMap Bytes JSValue}

theorem isObject (stores : ctx.Stores address obj map) :
    ctx.objectPtr (.ptr address) = some (address, obj) := by
  rw [objectPtr, stores.stored]

/-- What the object holds under the key of a name is what the map has. -/
theorem own_eq
    (stores : ctx.Stores address obj map) (wellFormed : ctx.WellFormed) {name : Bytes}
    {key : PropKey} (names : ctx.Names name key) {isLength : Bool}
    (beside : obj.isArray = true → key.kind = .atom ∧ isLength = false) :
    ctx.own key isLength address obj = map.get name := by
  rw [own_eq_findPropValue beside, Synced.findPropValue_eq stores.sync,
    stores.findProp_eq wellFormed names]

/-- A name without a key is not in the map. -/
theorem get_eq_none
    (stores : ctx.Stores address obj map) {name : Bytes}
    (unnamed : ∀ key, ¬ctx.Names name key) : map.get name = none := by
  rw [OrderedMap.get_eq_none_iff]
  intro present
  obtain ⟨entry, isEntry, rfl⟩ := List.mem_map.mp present
  have related : ∀ {props : List Property} {entries : List (Bytes × JSValue)},
      List.Forall₂ ctx.Stands props entries → entry ∈ entries →
      ∃ key, ctx.Names entry.1 key := by
    intro props entries stands isEntry
    induction stands with
    | nil => cases isEntry
    | cons stands rest ih =>
        rcases List.mem_cons.mp isEntry with rfl | later
        · exact ⟨_, stands.1⟩
        · exact ih later
  obtain ⟨key, names⟩ := related stores.stands isEntry
  exact unnamed key names

/-- The listed names are the elements of an array and the keys of the map. -/
theorem objectKeys_eq (stores : ctx.Stores address obj map) :
    ctx.objectKeys (.ptr address) = some
      ((if obj.isArray then (List.range obj.arrayLen.toNat).map natBytes else []) ++
        map.keys) := by
  have listed : ∀ {props : List Property} {entries : List (Bytes × JSValue)},
      List.Forall₂ ctx.Stands props entries →
      (props.filterMap fun prop => ctx.keyText prop.key) = entries.map Prod.fst := by
    intro props entries stands
    induction stands with
    | nil => rfl
    | @cons prop entry props entries stands rest ih =>
        have isText : ctx.keyText prop.key = some entry.1 := by
          obtain ⟨key, value⟩ := prop
          obtain ⟨name, held⟩ := entry
          cases stands.1 with
          | index idx => rfl
          | atom isText notIndex isUtf8 =>
              change (ctx.atomBytes _).filter _ = _
              rw [isText]
              exact if_pos isUtf8
        rw [List.filterMap_cons_some (f := fun prop : Property => ctx.keyText prop.key) isText,
          ih, List.map_cons]
  rw [objectKeys, stores.isObject, Option.map_some]
  dsimp only
  rw [listed stores.stands]
  rfl

/-- The object is written back with other elements. -/
theorem putElements
    (stores : ctx.Stores address obj map) {after : Context} (sameAtoms : after.atoms = ctx.atoms)
    (sameMaps : after.propMaps = ctx.propMaps) {obj' : HeapObject}
    (sameProps : obj'.props = obj.props) (sameCount : obj'.propCount = obj.propCount) :
    (after.putObject address obj').Stores address obj' map where
  stored := Function.update_self _ _ _
  stands := by
    rw [sameProps]
    exact stores.stands.imp fun _ _ stands => stands.of_atoms (by exact sameAtoms)
  sync := by
    unfold HeapObject.findProp
    rw [sameCount, sameProps, show (after.putObject address obj').propMaps = _ from sameMaps]
    exact stores.sync

/-- An element of an array is no property. -/
theorem arraySet
    (stores : ctx.Stores address obj map) (idx : UInt32) (value : JSValue) :
    ∃ obj', (ctx.arraySet address obj idx value).2.Stores address obj' map := by
  unfold Context.arraySet
  split
  · split
    · exact ⟨obj, stores⟩
    · exact ⟨_, stores.putElements rfl rfl rfl rfl⟩
  · dsimp only
    split
    · exact ⟨obj, stores⟩
    · rename_i grown after isGrown
      obtain ⟨sameAtoms, sameMaps, sameProps, sameCount⟩ : after.atoms = ctx.atoms ∧
          after.propMaps = ctx.propMaps ∧ grown.props = obj.props ∧
          grown.propCount = obj.propCount := by
        split at isGrown
        · obtain ⟨_, -, same⟩ := Option.map_eq_some_iff.mp isGrown
          cases same
          exact ⟨rfl, rfl, rfl, rfl⟩
        · cases isGrown
          exact ⟨rfl, rfl, rfl, rfl⟩
      split <;> exact ⟨_, stores.putElements sameAtoms sameMaps sameProps sameCount⟩

end Context.Stores

theorem Context.Holds.own_eq
    {ctx : Context} {address : ℕ} {obj : HeapObject} {map : OrderedMap Bytes JSValue}
    (holds : ctx.Holds address obj map) (wellFormed : ctx.WellFormed) {name : Bytes}
    {key : PropKey} (names : ctx.Names name key) (isLength : Bool) :
    ctx.own key isLength address obj = map.get name :=
  holds.toStores.own_eq wellFormed names fun isArray =>
    absurd (holds.plain.symm.trans isArray) Bool.false_ne_true

section Steps

variable {ctx : Context} {address : ℕ} {obj : HeapObject} {map : OrderedMap Bytes JSValue}
  (stores : ctx.Stores address obj map) (wellFormed : ctx.WellFormed)

include stores wellFormed

theorem set_step
    {name : Bytes} {key : PropKey} (names : ctx.Names name key) {value : JSValue}
    (safely : ctx.AddsSafely address obj key) {outcome : Bool × Context}
    (isOutcome : ctx.setPropValue address obj key value = outcome) :
    ∃ obj', outcome.2.Stores address obj'
      (if outcome.1 then map.set name value else map) := by
  rw [← isOutcome]
  obtain ⟨obj', after, -⟩ := stores.setPropValue wellFormed names value safely
  exact ⟨obj', after⟩

theorem delete_step
    {name : Bytes} {key : PropKey} (names : ctx.Names name key) {outcome : Bool × Context}
    (isOutcome : ctx.deletePropValue address obj key = outcome) :
    outcome.1 = (map.get name).isSome ∧
      ∃ obj', outcome.2.Stores address obj' (if outcome.1 then map.erase name else map) := by
  obtain ⟨isPresent, obj', after⟩ := stores.deletePropValue wellFormed names
  rw [isOutcome] at isPresent after
  refine ⟨isPresent, obj', ?_⟩
  rw [isPresent]
  split
  · exact after
  · rename_i absent
    rw [OrderedMap.erase_of_absent (Option.not_isSome_iff_eq_none.mp absent)] at after
    exact after

variable (room : ctx.atoms.entries.length < 2 ^ 32)

include room

/-- One careful operation answers what the map says, and the object then stands
for the map after it. -/
theorem PropertyOp.run_stores (op : PropertyOp) (careful : op.Careful ctx address obj) :
    op.Answers ctx obj map (op.run (.ptr address) ctx).1 ∧
      ∃ obj', (op.run (.ptr address) ctx).2.Stores address obj'
        (op.effect ctx obj (op.run (.ptr address) ctx).1 map) := by
  have isObject := stores.isObject
  have elsewhere : (none : Option ℕ) ≠ some address := nofun
  have keyed : ∀ {name : Bytes}, Context.ProperName name →
      (ctx.keyOf name).2.WellFormed ∧ (ctx.keyOf name).2.Stores address obj map ∧
        (∀ key, (ctx.keyOf name).1 = some key → (ctx.keyOf name).2.Names name key) ∧
        ((ctx.keyOf name).1 = none → map.get name = none) := by
    intro name proper
    obtain ⟨changes, names, unnamed⟩ := Context.keyOf_spec wellFormed room proper
    exact ⟨changes.wellFormed wellFormed, stores.mono wellFormed changes elsewhere, names,
      fun noKey => stores.get_eq_none (unnamed noKey).2⟩
  cases op with
  | setStr name value =>
      obtain ⟨⟨proper, beside⟩, safely⟩ := careful
      obtain ⟨keyWellFormed, keyStores, names, -⟩ := keyed proper
      have isSet := Context.setPropertyStr_eq isObject beside value
      cases isKey : (ctx.keyOf name).1 with
      | none =>
          rw [isKey] at isSet
          refine ⟨⟨_, rfl, fun _ => .inl (Context.allocString_of_keyOf isKey)⟩, ?_⟩
          change ∃ obj', (ctx.setPropertyStr (.ptr address) name value).2.Stores address obj'
            (if (ctx.setPropertyStr (.ptr address) name value).1 then _ else map)
          rw [isSet]
          exact ⟨obj, keyStores⟩
      | some key =>
          rw [isKey] at isSet
          refine ⟨⟨_, rfl, fun fails => ?_⟩,
            set_step keyStores keyWellFormed (names key isKey) (safely key isKey) isSet.symm⟩
          rw [isSet] at fails
          exact .inr (Context.allocProperty_of_setPropValue fails)
  | setAtomId atom value =>
      obtain ⟨⟨name, isText, notIndex, isUtf8⟩, safely⟩ := careful
      have isSet := Context.setPropertyAtomId_eq isObject atom value
      refine ⟨⟨_, rfl, fun fails => ?_⟩, ?_⟩
      · rw [isSet] at fails
        exact Context.allocProperty_of_setPropValue fails
      have after := set_step stores wellFormed (.atom isText notIndex isUtf8) safely isSet.symm
      unfold PropertyOp.effect
      dsimp only
      rw [isText]
      exact after
  | setIndex idx value =>
      cases isArray : obj.isArray with
      | true =>
          have isSet := Context.setPropertyIndex_of_array isObject isArray idx value
          obtain ⟨obj', after⟩ := stores.arraySet idx value
          refine ⟨⟨_, rfl, fun _ plain => absurd (plain.symm.trans isArray) Bool.false_ne_true⟩,
            obj', ?_⟩
          change (ctx.setPropertyIndex (.ptr address) idx value).2.Stores address obj'
            (if (ctx.setPropertyIndex (.ptr address) idx value).1 then
              (if obj.isArray then map else _) else map)
          rw [isArray, if_pos rfl, ite_self, isSet]
          exact after
      | false =>
          have isSet := Context.setPropertyIndex_eq isObject isArray idx value
          refine ⟨⟨_, rfl, fun fails _ => ?_⟩, ?_⟩
          · rw [isSet] at fails
            exact Context.allocProperty_of_setPropValue fails
          · unfold PropertyOp.effect
            dsimp only
            rw [isArray]
            exact set_step stores wellFormed (.index idx) (careful isArray) isSet.symm
  | getStr name =>
      obtain ⟨keyWellFormed, keyStores, names, absent⟩ := keyed careful.1
      have isGet := Context.getPropertyStr_eq isObject name
      constructor
      · change Response.value (ctx.getPropertyStr (.ptr address) name).1 = _
        rw [isGet]
        unfold Context.absentValue
        cases isKey : (ctx.keyOf name).1 with
        | none =>
            rw [absent isKey]
            rfl
        | some key =>
            rw [Option.bind_some, Option.bind_some,
              Context.getFromChain_of_object keyStores.isObject,
              keyStores.own_eq keyWellFormed (names key isKey) (careful.2.isAtom isKey)]
      · refine ⟨obj, ?_⟩
        change (ctx.getPropertyStr (.ptr address) name).2.Stores address obj map
        rw [isGet]
        exact keyStores
  | getAtomId atom =>
      obtain ⟨name, isText, notIndex, isUtf8⟩ := careful
      refine ⟨⟨name, isText, ?_⟩, obj, stores⟩
      have isGet := Context.getFromChain_of_object isObject ⟨.atom, atom⟩ false
      rw [stores.own_eq wellFormed (.atom isText notIndex isUtf8) fun _ => ⟨rfl, rfl⟩] at isGet
      exact congrArg Response.value isGet
  | getIndex idx =>
      refine ⟨fun plain => ?_, obj, stores⟩
      have isGet := Context.getFromChain_of_object isObject ⟨.index, idx⟩ false
      rw [stores.own_eq wellFormed (.index idx) fun isArray =>
        absurd (plain.symm.trans isArray) Bool.false_ne_true] at isGet
      exact congrArg Response.value isGet
  | hasStr name =>
      obtain ⟨keyWellFormed, keyStores, names, absent⟩ := keyed careful.1
      have isHas := Context.hasPropertyStr_eq isObject name
      constructor
      · change Response.present (ctx.hasPropertyStr (.ptr address) name).1 = _
        rw [isHas]
        unfold Context.absentHas
        cases isKey : (ctx.keyOf name).1 with
        | none =>
            rw [absent isKey]
            rfl
        | some key =>
            rw [Option.elim_some, Option.elim_some,
              Context.hasInChain_of_object keyStores.isObject,
              keyStores.own_eq keyWellFormed (names key isKey) (careful.2.isAtom isKey)]
      · refine ⟨obj, ?_⟩
        change (ctx.hasPropertyStr (.ptr address) name).2.Stores address obj map
        rw [isHas]
        exact keyStores
  | deleteStr name =>
      obtain ⟨keyWellFormed, keyStores, names, absent⟩ := keyed careful.1
      have isDelete := Context.deletePropertyStr_eq isObject careful.2
      cases isKey : (ctx.keyOf name).1 with
      | none =>
          rw [isKey] at isDelete
          constructor
          · change Response.success (ctx.deletePropertyStr (.ptr address) name).1 = _
            rw [isDelete, absent isKey]
            rfl
          · change ∃ obj', (ctx.deletePropertyStr (.ptr address) name).2.Stores address obj'
              (if (ctx.deletePropertyStr (.ptr address) name).1 then _ else map)
            rw [isDelete]
            exact ⟨obj, keyStores⟩
      | some key =>
          rw [isKey] at isDelete
          obtain ⟨isPresent, after⟩ :=
            delete_step keyStores keyWellFormed (names key isKey) isDelete.symm
          exact ⟨congrArg Response.success isPresent, after⟩
  | deleteIndex idx =>
      by_cases element : obj.isArray = true ∧ idx < obj.arrayLen
      · obtain ⟨isDone, after⟩ : (ctx.deletePropertyIndex (.ptr address) idx).1 = true ∧
            ∃ obj', (ctx.deletePropertyIndex (.ptr address) idx).2.Stores address obj' map := by
          rw [Context.deletePropertyIndex, isObject]
          dsimp only
          rw [if_pos element]
          exact ⟨rfl, _, stores.putElements rfl rfl rfl rfl⟩
        unfold PropertyOp.Answers PropertyOp.effect PropertyOp.run
        dsimp only
        rw [decide_eq_true element, if_pos element, ite_self, isDone]
        exact ⟨rfl, after⟩
      · obtain ⟨isPresent, after⟩ := delete_step stores wellFormed (.index idx)
          (Context.deletePropertyIndex_eq isObject element).symm
        unfold PropertyOp.Answers PropertyOp.effect PropertyOp.run
        dsimp only
        rw [decide_eq_false element, if_neg element]
        exact ⟨congrArg Response.success isPresent, after⟩
  | keys => exact ⟨congrArg Response.names stores.objectKeys_eq, obj, stores⟩

end Steps

/-! ## Runs -/

/-- The map after an action, for the object at a value. -/
def Action.effect (action : Action) (val : JSValue) (ctx : Context)
    (map : OrderedMap Bytes JSValue) : OrderedMap Bytes JSValue :=
  match action with
  | .on target op =>
      if target = val then
        match ctx.objectPtr val with
        | some (_, obj) => op.effect ctx obj (op.run val ctx).1 map
        | none => map
      else map
  | _ => map

/-- The steps that keep the store of the object at a value in order. -/
def Action.Careful (action : Action) (val : JSValue) (ctx : Context) : Prop :=
  match action with
  | .on target op =>
      target = val → ∀ address obj, ctx.objectPtr val = some (address, obj) →
        op.Careful ctx address obj
  | _ => True

namespace Context

/-- The map that has the history of the object at a value. -/
def history (val : JSValue) : List Action → Context → OrderedMap Bytes JSValue →
    OrderedMap Bytes JSValue
  | [], _, map => map
  | action :: rest, ctx, map => history val rest (action.run ctx).2 (action.effect val ctx map)

/-- Every action is careful, in a context with less than `2 ^ 32` atoms. -/
def CarefulRun (val : JSValue) : List Action → Context → Prop
  | [], _ => True
  | action :: rest, ctx =>
      ctx.atoms.entries.length < 2 ^ 32 ∧ action.Careful val ctx ∧
        CarefulRun val rest (action.run ctx).2

theorem CarefulRun.append
    {val : JSValue} {first second : List Action} {ctx : Context}
    (careful : ctx.CarefulRun val (first ++ second)) :
    ctx.CarefulRun val first ∧ (ctx.after first).CarefulRun val second := by
  induction first generalizing ctx with
  | nil => exact ⟨trivial, careful⟩
  | cons action rest ih =>
      obtain ⟨room, isCareful, later⟩ := careful
      obtain ⟨before, last⟩ := ih later
      exact ⟨⟨room, isCareful, before⟩, last⟩

/-- The contexts that come from a new one by actions, with less than `2 ^ 32`
atoms. -/
inductive Reached (size : ℕ) : Context → Prop
  | new : Reached size (new size)
  | act {ctx : Context} (reached : Reached size ctx)
      (room : ctx.atoms.entries.length < 2 ^ 32) (action : Action) :
      Reached size (action.run ctx).2

theorem Reached.wellFormed {size : ℕ} {ctx : Context} (reached : Reached size ctx) :
    ctx.WellFormed := by
  induction reached with
  | new => exact ⟨AtomTable.wellFormed_new, fun _ _ => rfl, fun _ _ => rfl⟩
  | act reached room action ih => exact (action.run_changes ih room).wellFormed ih

/-- A new object stands for the empty map. -/
theorem newObject_stores
    {ctx after : Context} {classId : UInt32} {val : JSValue} (wellFormed : ctx.WellFormed)
    (created : ctx.newObject classId = some (val, after)) :
    after.WellFormed ∧ ∃ address obj, val = .ptr address ∧ after.Stores address obj .empty := by
  unfold newObject at created
  obtain ⟨⟨address, allocated⟩, isAlloc, isAfter⟩ := Option.map_eq_some_iff.mp created
  cases isAfter
  obtain ⟨changes, -, -, stored, -⟩ := allocCell_changes (by decide) isAlloc
  exact ⟨changes.wellFormed wellFormed, address, _, rfl, stored, .nil,
    fun large => absurd large (Nat.not_lt_zero _)⟩

end Context

section Runs

variable {ctx : Context} {address : ℕ} {obj : HeapObject} {map : OrderedMap Bytes JSValue}

/-- An action on another value keeps the object. -/
theorem Context.Stores.elsewhere
    (stores : ctx.Stores address obj map) (wellFormed : ctx.WellFormed)
    (room : ctx.atoms.entries.length < 2 ^ 32) {action : Action}
    (other : action.place ctx ≠ some address) : (action.run ctx).2.Stores address obj map :=
  stores.mono wellFormed (action.run_changes wellFormed room) other

theorem Context.place_ne
    {target : JSValue} (isOther : target ≠ .ptr address) : ctx.place target ≠ some address := by
  intro isPlace
  obtain ⟨⟨place, held⟩, isObject, rfl⟩ := Option.map_eq_some_iff.mp isPlace
  exact isOther (Context.objectPtr_eq_some isObject).1

/-- One careful action of a context keeps the object standing for its map. -/
theorem Action.run_stores
    (action : Action) (stores : ctx.Stores address obj map) (wellFormed : ctx.WellFormed)
    (room : ctx.atoms.entries.length < 2 ^ 32)
    (careful : action.Careful (.ptr address) ctx) :
    ∃ obj', (action.run ctx).2.Stores address obj' (action.effect (.ptr address) ctx map) := by
  cases action with
  | on target op =>
      by_cases isOther : target = .ptr address
      · have opCareful := careful isOther address obj stores.isObject
        obtain ⟨-, after⟩ := op.run_stores stores wellFormed room opCareful
        unfold Action.effect Action.run
        dsimp only
        rw [if_pos isOther, isOther, stores.isObject]
        exact after
      · unfold Action.effect
        dsimp only
        rw [if_neg isOther]
        exact ⟨obj, stores.elsewhere wellFormed room (Context.place_ne isOther)⟩
  | setObjectProto target proto =>
      by_cases isOther : target = .ptr address
      · have isSet : ctx.setObjectProto target proto =
            (true, ctx.putObject address { obj with proto := proto }) := by
          rw [isOther, Context.setObjectProto, stores.isObject]
        refine ⟨{ obj with proto := proto }, ?_⟩
        change (ctx.setObjectProto target proto).2.Stores address _ map
        rw [isSet]
        exact stores.putElements rfl rfl rfl rfl
      · exact ⟨obj, stores.elsewhere wellFormed room (Context.place_ne isOther)⟩
  | newObject | newString | newFloat | intern | setObjectProtoDefault =>
      exact ⟨obj, stores.elsewhere wellFormed room nofun⟩

/-- A careful run keeps the object standing for the map that has its history. -/
theorem Context.after_stores
    (actions : List Action) (stores : ctx.Stores address obj map) (wellFormed : ctx.WellFormed)
    (careful : ctx.CarefulRun (.ptr address) actions) :
    (ctx.after actions).WellFormed ∧
      ∃ obj', (ctx.after actions).Stores address obj' (ctx.history (.ptr address) actions map) := by
  induction actions generalizing ctx obj map with
  | nil => exact ⟨wellFormed, obj, stores⟩
  | cons action rest ih =>
      obtain ⟨room, isCareful, later⟩ := careful
      obtain ⟨obj', after⟩ := action.run_stores stores wellFormed room isCareful
      exact ih after ((action.run_changes wellFormed room).wellFormed wellFormed) later

end Runs

/-- After a careful run, every careful operation on an object, or on an array by name,
answers what the map with the object's history says: what was set last and not
deleted since, and the names in the order in which they came. -/
theorem Context.careful_run_answers
    {size : ℕ} {ctx start : Context} (reached : Context.Reached size ctx) {classId : UInt32}
    {val : JSValue}
    (created : ctx.newObject classId = some (val, start)) (actions : List Action)
    (op : PropertyOp) (careful : start.CarefulRun val (actions ++ [.on val op])) :
    ∃ address obj, (start.after actions).objectPtr val = some (address, obj) ∧
      op.Answers (start.after actions) obj (start.history val actions .empty)
        (op.run val (start.after actions)).1 := by
  obtain ⟨wellFormed, address, obj, rfl, stores⟩ :=
    Context.newObject_stores reached.wellFormed created
  obtain ⟨before, last⟩ := CarefulRun.append careful
  obtain ⟨afterWellFormed, obj', after⟩ := Context.after_stores actions stores wellFormed before
  obtain ⟨room, opCareful, -⟩ := last
  exact ⟨address, obj', after.isObject,
    (op.run_stores after afterWellFormed room
      (opCareful rfl address obj' after.isObject)).1⟩

/-- A context with one plain object, at the start of its memory. -/
def Context.withOneObject : Context :=
  ((new 1000).newObject objectClass).elim (new 1000) Prod.snd

theorem Context.careful_run_answers_two_keys :
    ∃ address obj,
      (withOneObject.after [.on (.ptr 0) (.setIndex 7 .null),
          .on (.ptr 0) (.setIndex 3 .null)]).objectPtr (.ptr 0) = some (address, obj) ∧
        PropertyOp.keys.Answers
          (withOneObject.after [.on (.ptr 0) (.setIndex 7 .null),
            .on (.ptr 0) (.setIndex 3 .null)]) obj
          (withOneObject.history (.ptr 0) [.on (.ptr 0) (.setIndex 7 .null),
            .on (.ptr 0) (.setIndex 3 .null)] .empty)
          (PropertyOp.keys.run (.ptr 0)
            (withOneObject.after [.on (.ptr 0) (.setIndex 7 .null),
              .on (.ptr 0) (.setIndex 3 .null)])).1 := by
  refine Context.careful_run_answers (Reached.new : Reached 1000 _)
    (rfl : (new 1000).newObject objectClass = some (.ptr 0, withOneObject)) _ _ ?_
  refine ⟨by decide, ?_, by decide, ?_, by decide, ?_, trivial⟩
  · rintro - address obj isObject
    cases isObject
    exact fun _ _ => ⟨fun _ => rfl, fun large => absurd large (by decide)⟩
  · rintro - address obj isObject
    cases isObject
    exact fun _ _ => ⟨fun _ => rfl, fun large => absurd large (by decide)⟩
  · exact fun _ _ _ _ => trivial

/-- Nine properties are set, one is deleted and another one set. -/
def regrowth (val : JSValue) : List Action :=
  ([0, 1, 2, 3, 4, 5, 6, 7, 8].map fun idx => .on val (.setIndex idx .null)) ++
    [.on val (.deleteIndex 8), .on val (.setIndex 9 .null)]

/-- The ninth property of an object that has lost one cannot be read. -/
theorem Context.regrown_object_forgets :
    ¬∀ (size : ℕ) (ctx start : Context), Reached size ctx →
      ∀ (classId : UInt32) (val : JSValue), ctx.newObject classId = some (val, start) →
      ∀ (actions : List Action) (op : PropertyOp),
        ∃ address obj, (start.after actions).objectPtr val = some (address, obj) ∧
          op.Answers (start.after actions) obj (start.history val actions .empty)
            (op.run val (start.after actions)).1 := by
  intro always
  obtain ⟨address, obj, isObject, answers⟩ := always 1000 (new 1000) withOneObject .new objectClass
    (.ptr 0) rfl (regrowth (.ptr 0)) (.getIndex 9)
  have isRead : ((PropertyOp.getIndex 9).run (.ptr 0)
      (withOneObject.after (regrowth (.ptr 0)))).1 = .value (some .undefined) := rfl
  have isMapped : (withOneObject.history (.ptr 0) (regrowth (.ptr 0)) .empty).get
      (natBytes (9 : UInt32).toNat) = some .null := rfl
  unfold PropertyOp.Answers at answers
  dsimp only at answers
  rw [isRead, isMapped] at answers
  cases isObject
  cases answers rfl

end Script
end MuonJs
