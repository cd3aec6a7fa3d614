import MuonJs.Script.JsonText
import MuonJs.Script.Properties

/-!
# JSON values on the heap

When a value on the heap stands for a tree, and how much memory and how many
atoms the steps of the writer and the reader take.  The steps look for accessors
and functions under marked names; an object without marked names, whose
prototypes have none, has no accessors.
-/

namespace MuonJs
namespace Script

open Cache (Bytes F64 asBytes fromUtf8 natBytes)

namespace Context

/-! ## Memory and atoms -/

/-- That much memory is free, and that many atoms. -/
structure Room (ctx : Context) (bytes names : ℕ) : Prop where
  memory : ctx.mem.offset + bytes ≤ ctx.mem.size
  atoms : ctx.atoms.entries.length + names ≤ 2 ^ 32

theorem Room.mono {ctx : Context} {bytes names bytes' names' : ℕ} (room : ctx.Room bytes names)
    (fewerBytes : bytes' ≤ bytes) (fewerNames : names' ≤ names) : ctx.Room bytes' names' :=
  ⟨(Nat.add_le_add_left fewerBytes _).trans room.memory,
    (Nat.add_le_add_left fewerNames _).trans room.atoms⟩

/-- `after` comes from `before` by allocations, and new objects have the same
prototype. -/
structure Adds (before after : Context) : Prop where
  changes : Changes none before after
  proto : after.objectProto = before.objectProto

namespace Adds

theorem refl (ctx : Context) : Adds ctx ctx := ⟨.refl none ctx, rfl⟩

theorem trans {first second third : Context} (former : Adds first second)
    (latter : Adds second third) : Adds first third :=
  ⟨former.changes.trans latter.changes, latter.proto.trans former.proto⟩

end Adds

theorem alloc_of_room {ctx : Context} {size bytes names : ℕ}
    (room : ctx.Room (size + 7 + bytes) names) :
    ∃ address mem, ctx.mem.alloc size 8 = some (address, mem) ∧
      mem.offset + bytes ≤ mem.size := by
  have isAligned : alignUp ctx.mem.offset 8 ≤ ctx.mem.offset + 7 := by
    rw [alignUp, if_neg (by decide)]
    omega
  have fits := room.memory
  refine ⟨_, _, if_neg (by omega), ?_⟩
  dsimp only
  omega

theorem allocCell_of_room {ctx : Context} {size bytes names : ℕ} (cell : Cell)
    (nonempty : 0 < size) (room : ctx.Room (size + 7 + bytes) names) :
    ∃ address after, ctx.allocCell size cell = some (address, after) ∧ Adds ctx after ∧
      after.Room bytes names ∧ ctx.mem.offset ≤ address ∧ address < after.mem.offset ∧
      after.heap address = some cell := by
  obtain ⟨address, mem, isAlloc, fits⟩ := alloc_of_room room
  have allocated : ctx.allocCell size cell = some (address,
      { ctx with mem := mem, heap := Function.update ctx.heap address (some cell) }) := by
    rw [allocCell, isAlloc]
    rfl
  obtain ⟨changes, isNew, inUse, stored, -, -⟩ := allocCell_changes nonempty allocated
  exact ⟨address, _, allocated, ⟨changes, rfl⟩, ⟨fits, room.atoms⟩, isNew, inUse, stored⟩

/-- A text is interned. -/
theorem internString_of_room {ctx : Context} (wellFormed : ctx.WellFormed) {text : Bytes}
    {bytes names : ℕ} (room : ctx.Room (text.length + 16 + bytes) (1 + names)) :
    ∃ atom, (ctx.internString text).1 = some atom ∧ Adds ctx (ctx.internString text).2 ∧
      (ctx.internString text).2.Room bytes names := by
  have few : ctx.atoms.entries.length < 2 ^ 32 := by
    have atoms := room.atoms
    omega
  have changes := (internString_spec wellFormed few text).1
  cases isFound : ctx.atoms.find text with
  | some id =>
      have interned : ctx.internString text = (some id, ctx) := by
        rw [internString, isFound]
      rw [interned]
      exact ⟨id, rfl, .refl ctx, room.mono (by omega) (by omega)⟩
  | none =>
      obtain ⟨address, after, allocated, adds, roomAfter, -⟩ :=
        allocCell_of_room (.string text) (by omega : 0 < 8 + text.length + 1)
          (room.mono (by omega : 8 + text.length + 1 + 7 + bytes ≤ _) le_rfl)
      have isAlloc : ctx.allocString text = some (address, after) := allocated
      have interned : ctx.internString text = (some (after.atoms.push text).1,
          { after with atoms := (after.atoms.push text).2 }) := by
        rw [internString, isFound, isAlloc]
      rw [interned] at changes ⊢
      refine ⟨_, rfl, ⟨changes, adds.proto⟩, roomAfter.memory, ?_⟩
      change (after.atoms.entries ++ [some text]).length + names ≤ 2 ^ 32
      have atoms := roomAfter.atoms
      rw [List.length_append, List.length_singleton]
      omega

/-- A name has a key. -/
theorem keyOf_of_room {ctx : Context} (wellFormed : ctx.WellFormed) {name : Bytes}
    (proper : ProperName name) {bytes names : ℕ}
    (room : ctx.Room (name.length + 16 + bytes) (1 + names)) :
    ∃ key, (ctx.keyOf name).1 = some key ∧ (ctx.keyOf name).2.Names name key ∧
      Adds ctx (ctx.keyOf name).2 ∧ (ctx.keyOf name).2.Room bytes names := by
  have few : ctx.atoms.entries.length < 2 ^ 32 := by
    have atoms := room.atoms
    omega
  obtain ⟨-, isName, -⟩ := keyOf_spec wellFormed few proper
  have made : ∃ key, (ctx.keyOf name).1 = some key ∧ Adds ctx (ctx.keyOf name).2 ∧
      (ctx.keyOf name).2.Room bytes names := by
    unfold keyOf
    cases parseIndex name with
    | some idx => exact ⟨_, rfl, .refl ctx, room.mono (by omega) (by omega)⟩
    | none =>
        obtain ⟨atom, isAtom, adds, roomAfter⟩ := internString_of_room wellFormed room
        dsimp only
        rw [isAtom]
        exact ⟨_, rfl, adds, roomAfter⟩
  obtain ⟨key, isKey, adds, roomAfter⟩ := made
  exact ⟨key, isKey, isName key isKey, adds, roomAfter⟩

theorem objectPtr_of_changes {before after : Context} (wellFormed : before.WellFormed)
    (changes : Changes none before after) {val : JSValue} {address : ℕ} {obj : HeapObject}
    (isObject : before.objectPtr val = some (address, obj)) :
    after.objectPtr val = some (address, obj) := by
  obtain ⟨rfl, stored⟩ := objectPtr_eq_some isObject
  rw [objectPtr, changes.cells address (wellFormed.inUse stored) (Option.some_ne_none _).symm, stored]

/-! ## Names that are not inherited -/

/-- The prototypes from here on, as far as the search for a property goes, are plain
objects without these names, and lie in the cells. -/
def Lacks (ctx : Context) (cells : Set ℕ) (names : Set Bytes) : ℕ → JSValue → Prop
  | 0, _ => True
  | depth + 1, current =>
      current = .null ∨ current = .undefined ∨
        ∃ address obj map, current = .ptr address ∧ address ∈ cells ∧ ctx.Holds address obj map ∧
          (∀ name ∈ map.keys, name ∉ names) ∧ ctx.Lacks cells names depth obj.proto

section Lacks

variable {ctx : Context} (wellFormed : ctx.WellFormed) {cells cells' : Set ℕ} {names : Set Bytes}

include wellFormed

theorem Lacks.mono {after : Context} {place : Option ℕ} (changes : Changes place ctx after)
    (elsewhere : ∀ address ∈ cells, place ≠ some address) {depth : ℕ} {current : JSValue}
    (lacks : ctx.Lacks cells names depth current) : after.Lacks cells names depth current := by
  induction depth generalizing current with
  | zero => trivial
  | succ depth ih =>
      rcases lacks with isNull | isUndefined |
        ⟨address, obj, map, isPtr, isCell, holds, none, rest⟩
      · exact .inl isNull
      · exact .inr (.inl isUndefined)
      · exact .inr (.inr ⟨address, obj, map, isPtr, isCell,
          holds.mono wellFormed changes (elsewhere address isCell), none, ih rest⟩)

theorem Lacks.inUse (kept : ∀ address ∈ cells, address < ctx.mem.offset → address ∈ cells')
    {depth : ℕ} {current : JSValue} (lacks : ctx.Lacks cells names depth current) :
    ctx.Lacks cells' names depth current := by
  induction depth generalizing current with
  | zero => trivial
  | succ depth ih =>
      rcases lacks with isNull | isUndefined |
        ⟨address, obj, map, isPtr, isCell, holds, none, rest⟩
      · exact .inl isNull
      · exact .inr (.inl isUndefined)
      · exact .inr (.inr ⟨address, obj, map, isPtr,
          kept address isCell (wellFormed.inUse holds.stored), holds, none, ih rest⟩)

/-- Such a name is not found in the prototypes. -/
theorem Lacks.getFromChain {name : Bytes} {key : PropKey} (isName : ctx.Names name key)
    (isLacking : name ∈ names) (isLength : Bool) {depth : ℕ} {current : JSValue}
    (lacks : ctx.Lacks cells names depth current) :
    ctx.getFromChain (ctx.own key isLength) depth current = none ∨
      ctx.getFromChain (ctx.own key isLength) depth current = some .undefined := by
  induction depth generalizing current with
  | zero => exact .inr rfl
  | succ depth ih =>
      rcases lacks with rfl | rfl | ⟨address, obj, map, rfl, -, holds, notName, rest⟩
      · exact .inl rfl
      · exact .inl rfl
      · have notOwn : ctx.own key isLength address obj = none := by
          rw [holds.own_eq wellFormed isName, OrderedMap.get_eq_none_iff]
          exact fun isKey => notName name isKey isLacking
        rw [Context.getFromChain, holds.isObject]
        dsimp only
        rw [notOwn]
        dsimp only
        split
        · exact .inr rfl
        · exact ih rest

end Lacks

/-! ## Marked names -/

/-- The name marks an accessor or a function. -/
def IsMarker (name : Bytes) : Prop :=
  Json.isAccessorName name = true ∨ name = asBytes "__closure__"

/-- The prototypes from here on, as far as the search for a property goes, are
plain objects without marked names, and lie in the cells. -/
def Unmarked (ctx : Context) (cells : Set ℕ) : ℕ → JSValue → Prop
  | 0, _ => True
  | depth + 1, current =>
      current = .null ∨ current = .undefined ∨
        ∃ address obj map, current = .ptr address ∧ address ∈ cells ∧ ctx.Holds address obj map ∧
          (∀ name ∈ map.keys, ¬IsMarker name) ∧ ctx.Unmarked cells depth obj.proto

theorem unmarked_iff_lacks {ctx : Context} {cells : Set ℕ} {depth : ℕ} {current : JSValue} :
    ctx.Unmarked cells depth current ↔ ctx.Lacks cells {name | IsMarker name} depth current := by
  induction depth generalizing current with
  | zero => exact Iff.rfl
  | succ depth ih =>
      simp only [Unmarked, Lacks, ih]
      rfl

theorem Unmarked.mono {before after : Context} {place : Option ℕ} {cells : Set ℕ}
    (wellFormed : before.WellFormed) (changes : Changes place before after)
    (elsewhere : ∀ address ∈ cells, place ≠ some address) {depth : ℕ} {current : JSValue}
    (unmarked : before.Unmarked cells depth current) : after.Unmarked cells depth current :=
  unmarked_iff_lacks.mpr ((unmarked_iff_lacks.mp unmarked).mono wellFormed changes elsewhere)

/-- The cells of the prototypes are in use. -/
theorem Unmarked.inUse {ctx : Context} (wellFormed : ctx.WellFormed) {cells cells' : Set ℕ}
    (kept : ∀ address ∈ cells, address < ctx.mem.offset → address ∈ cells') {depth : ℕ}
    {current : JSValue} (unmarked : ctx.Unmarked cells depth current) :
    ctx.Unmarked cells' depth current :=
  unmarked_iff_lacks.mpr ((unmarked_iff_lacks.mp unmarked).inUse wellFormed kept)

/-- A name that an object neither holds nor inherits is not found. -/
theorem getPropertyStr_of_lacks {ctx : Context} (wellFormed : ctx.WellFormed) {val : JSValue}
    {address : ℕ} {obj : HeapObject} (isObject : ctx.objectPtr val = some (address, obj))
    {name : Bytes} (proper : ProperName name) {cells : Set ℕ} {absent : Set Bytes}
    (isAbsent : name ∈ absent) (lacks : ctx.Lacks cells absent (protoSearchLimit - 1) obj.proto)
    (notOwn : ∀ key, (ctx.keyOf name).2.Names name key →
      (ctx.keyOf name).2.own key (name = asBytes "length") address obj = none)
    {bytes names : ℕ} (room : ctx.Room (name.length + 16 + bytes) (1 + names)) :
    ∃ found after, ctx.getPropertyStr val name = (found, after) ∧
      (found = none ∨ found = some .undefined) ∧ Adds ctx after ∧ after.Room bytes names := by
  obtain ⟨key, isKey, isName, adds, roomAfter⟩ := keyOf_of_room wellFormed proper room
  refine ⟨_, _, getPropertyStr_eq isObject name, ?_, adds, roomAfter⟩
  rw [isKey, Option.bind_some,
    getFromChain_of_object (objectPtr_of_changes wellFormed adds.changes isObject),
    notOwn key isName, Option.none_or, inheritedValue]
  split
  · exact .inr rfl
  · exact (lacks.mono wellFormed adds.changes nofun).getFromChain
      (adds.changes.wellFormed wellFormed) isName isAbsent _

/-! ## Properties read and written through the API -/

theorem properName_of_underscore {text : String} {rest name : Bytes}
    (isName : name = asBytes text) (starts : name = 95 :: rest) : ProperName name := by
  have notIndex : parseIndex name = none := by
    rw [starts, parseIndex, List.isEmpty_cons, if_neg Bool.false_ne_true, parseIndexFrom,
      if_pos (by decide)]
  rw [ProperName, notIndex, isName, Cache.fromUtf8_asBytes]
  rfl

/-- The name of an accessor of a name that is text. -/
theorem properName_accessor {marker : String} {rest name : Bytes}
    (starts : asBytes marker = 95 :: rest) (isText : (fromUtf8 name).isSome) :
    ProperName (asBytes marker ++ name) := by
  obtain ⟨text, decoded⟩ := Option.isSome_iff_exists.mp isText
  have isName : asBytes marker ++ name = asBytes (marker ++ text) := by
    rw [← Cache.asBytes_of_fromUtf8 decoded, Json.asBytes_append]
  have isStart : asBytes marker ++ name = 95 :: (rest ++ name) := by
    rw [starts]
    rfl
  exact properName_of_underscore isName isStart

theorem isAccessorName_get (name : Bytes) :
    Json.isAccessorName (asBytes "__get__" ++ name) = true := by
  rw [Json.isAccessorName, List.isPrefixOf_iff_prefix.mpr (List.prefix_append _ name),
    Bool.true_or]

theorem isAccessorName_set (name : Bytes) :
    Json.isAccessorName (asBytes "__set__" ++ name) = true := by
  rw [Json.isAccessorName, List.isPrefixOf_iff_prefix.mpr (List.prefix_append _ name),
    Bool.or_true]

theorem length_accessor {marker : String} (isShort : (asBytes marker).length = 7) (name : Bytes) :
    (asBytes marker ++ name).length = name.length + 7 := by
  rw [List.length_append, isShort, Nat.add_comm]

section Accessors

variable (engine : Json.Engine) {ctx : Context} (wellFormed : ctx.WellFormed) {val : JSValue}
  {address : ℕ} {obj : HeapObject} (isObject : ctx.objectPtr val = some (address, obj))
  {cells : Set ℕ} (unmarked : ctx.Unmarked cells (protoSearchLimit - 1) obj.proto)

include wellFormed isObject unmarked

/-- An object that holds no accessors has none. -/
theorem callAccessor_of_unmarked {marker : String} {rest name : Bytes}
    (starts : asBytes marker = 95 :: rest)
    (isAccessor : Json.isAccessorName (asBytes marker ++ name) = true)
    (notAccessor : Json.isAccessorName name = false) (isText : (fromUtf8 name).isSome)
    (args : List JSValue)
    (notOwn : ∀ key, (ctx.keyOf (asBytes marker ++ name)).2.Names (asBytes marker ++ name) key →
      (ctx.keyOf (asBytes marker ++ name)).2.own key (asBytes marker ++ name = asBytes "length")
        address obj = none)
    {bytes names : ℕ}
    (room : ctx.Room ((asBytes marker ++ name).length + 16 + bytes) (1 + names)) :
    ∃ after, ctx.callAccessor engine val marker name args = (none, after) ∧ Adds ctx after ∧
      after.Room bytes names := by
  obtain ⟨found, after, isFound, nothing, adds, roomAfter⟩ :=
    getPropertyStr_of_lacks wellFormed isObject (properName_accessor starts isText)
      (.inl isAccessor) (unmarked_iff_lacks.mp unmarked) notOwn room
  refine ⟨after, ?_, adds, roomAfter⟩
  rw [callAccessor, notAccessor, if_neg Bool.false_ne_true, isFound]
  rcases nothing with rfl | rfl
  · rfl
  · exact if_pos rfl

/-- An object that holds no marked name is not marked as a closure. -/
theorem jsGetPropertyStr_closure
    (notOwn : ∀ after name key, Adds ctx after →
      name = asBytes "__get____closure__" ∨ name = asBytes "__closure__" → after.Names name key →
      after.own key (name = asBytes "length") address obj = none)
    {bytes names : ℕ} (room : ctx.Room (61 + bytes) (2 + names)) :
    ∃ after, ctx.jsGetPropertyStr engine val (asBytes "__closure__") = (.undefined, after) ∧
      Adds ctx after ∧ after.Room bytes names := by
  have isText : (fromUtf8 (asBytes "__closure__")).isSome := by
    rw [Cache.fromUtf8_asBytes]
    rfl
  have properGet := @properName_accessor "__get__" _ _ rfl isText
  have roomGet : ctx.Room ((asBytes "__get__" ++ asBytes "__closure__").length + 16 + (27 + bytes))
      (1 + (1 + names)) := room.mono (by change 34 + (27 + bytes) ≤ _; omega) (by omega)
  obtain ⟨-, -, -, addsKey, -⟩ := keyOf_of_room wellFormed properGet roomGet
  obtain ⟨middle, noAccessor, adds, roomMiddle⟩ :=
    @callAccessor_of_unmarked engine ctx wellFormed val address obj isObject cells unmarked "__get__" _
      (asBytes "__closure__") rfl (isAccessorName_get _) rfl isText []
      (fun key isName => notOwn _ _ key addsKey (.inl rfl) isName)
      (27 + bytes) (1 + names) roomGet
  have wellFormedMiddle := adds.changes.wellFormed wellFormed
  have proper : ProperName (asBytes "__closure__") := properName_of_underscore rfl rfl
  have roomClosure : middle.Room ((asBytes "__closure__").length + 16 + bytes) (1 + names) :=
    roomMiddle
  obtain ⟨-, -, -, addsClosure, -⟩ := keyOf_of_room wellFormedMiddle proper roomClosure
  obtain ⟨found, after, isFound, nothing, addsAfter, roomAfter⟩ :=
    getPropertyStr_of_lacks wellFormedMiddle
      (objectPtr_of_changes wellFormed adds.changes isObject) proper (.inr rfl)
      (unmarked_iff_lacks.mp (unmarked.mono wellFormed adds.changes nofun))
      (fun key isName => notOwn _ _ key (adds.trans addsClosure) (.inr rfl) isName) roomClosure
  refine ⟨after, ?_, adds.trans addsAfter, roomAfter⟩
  rw [jsGetPropertyStr, noAccessor]
  dsimp only
  rw [isFound]
  rcases nothing with rfl | rfl <;> rfl

omit wellFormed unmarked in
/-- An object whose class is not that of functions is a function only by a mark. -/
theorem jsIsFunction_of_object (notFunction : obj.classId ≠ Json.cFunctionClass)
    (notClosure : obj.classId ≠ Json.closureClass) :
    ctx.jsIsFunction engine val =
      (decide ((ctx.jsGetPropertyStr engine val (asBytes "__closure__")).1 = .bool true),
        (ctx.jsGetPropertyStr engine val (asBytes "__closure__")).2) := by
  rw [jsIsFunction, isObject, stringBytes_of_object isObject]
  simp [notFunction, notClosure]

end Accessors

/-! ### Plain objects -/

/-- Properties stand for one list of entries. -/
theorem stands_unique {ctx : Context} {props : List Property}
    {entries entries' : List (Bytes × JSValue)} (stands : List.Forall₂ ctx.Stands props entries)
    (stands' : List.Forall₂ ctx.Stands props entries') : entries = entries' := by
  induction stands generalizing entries' with
  | nil =>
      cases stands'
      rfl
  | cons isEntry _ ih =>
      cases stands' with
      | cons isEntry' others =>
          rw [ih others, Prod.ext (isEntry.1.name_eq isEntry'.1)
            (isEntry.2.symm.trans isEntry'.2)]

theorem Names.isText {ctx : Context} {name : Bytes} {key : PropKey}
    (names : ctx.Names name key) : (fromUtf8 name).isSome := by
  cases names with
  | index idx => exact Json.isText_natBytes idx.toNat
  | atom isText notIndex isUtf8 => exact isUtf8

theorem Names.proper {ctx : Context} {name : Bytes} {key : PropKey}
    (names : ctx.Names name key) : ProperName name := by
  rw [ProperName]
  cases names with
  | index idx => rw [parseIndex_natBytes]
  | atom isText notIndex isUtf8 =>
      rw [notIndex]
      exact isUtf8

section Plain

variable (engine : Json.Engine) {ctx : Context} (wellFormed : ctx.WellFormed) {address : ℕ}
  {obj : HeapObject} {map : OrderedMap Bytes JSValue} (holds : ctx.Holds address obj map)
  {cells : Set ℕ} (unmarked : ctx.Unmarked cells (protoSearchLimit - 1) obj.proto)

include holds in
theorem Holds.exists_names {name : Bytes} (isKey : name ∈ map.keys) :
    ∃ key, ctx.Names name key := by
  by_contra unnamed
  have absent := holds.get_eq_none (not_exists.mp unnamed)
  exact (OrderedMap.get_eq_none_iff map name).mp absent isKey

include wellFormed holds unmarked

/-- No accessor is found for a name that has none among the keys. -/
theorem callAccessor_of_holds {marker : String} {rest name : Bytes}
    (starts : asBytes marker = 95 :: rest)
    (isAccessor : Json.isAccessorName (asBytes marker ++ name) = true)
    (noAccessor : Json.isAccessorName name = false → asBytes marker ++ name ∉ map.keys)
    (isText : (fromUtf8 name).isSome) (args : List JSValue) {bytes names : ℕ}
    (room : ctx.Room ((asBytes marker ++ name).length + 16 + bytes) (1 + names)) :
    ∃ after, ctx.callAccessor engine (.ptr address) marker name args = (none, after) ∧
      Adds ctx after ∧ after.Room bytes names := by
  cases notAccessor : Json.isAccessorName name with
  | true =>
      refine ⟨ctx, ?_, .refl ctx, room.mono (Nat.le_add_left _ _) (Nat.le_add_left _ _)⟩
      rw [callAccessor, notAccessor, if_pos rfl]
  | false =>
      refine callAccessor_of_unmarked engine wellFormed holds.isObject unmarked starts isAccessor
        notAccessor isText args (fun key isName => ?_) room
      obtain ⟨-, -, -, adds, -⟩ :=
        keyOf_of_room wellFormed (properName_accessor starts isText) room
      rw [(holds.mono wellFormed adds.changes nofun).own_eq (adds.changes.wellFormed wellFormed)
        isName, OrderedMap.get_eq_none_iff]
      exact noAccessor notAccessor

/-- A property of a plain object is read as the map has it. -/
theorem jsGetPropertyStr_of_holds {name : Bytes} {value : JSValue}
    (found : map.get name = some value)
    (noGetter : Json.isAccessorName name = false → asBytes "__get__" ++ name ∉ map.keys)
    {bytes names : ℕ} (room : ctx.Room (2 * name.length + 39 + bytes) (2 + names)) :
    ∃ after, ctx.jsGetPropertyStr engine (.ptr address) name = (value, after) ∧
      Adds ctx after ∧ after.Room bytes names := by
  have isKey : name ∈ map.keys := by
    by_contra absent
    rw [(OrderedMap.get_eq_none_iff map name).mpr absent] at found
    cases found
  obtain ⟨key, isName⟩ := holds.exists_names isKey
  have isLength := @length_accessor "__get__" rfl name
  have roomGetter : ctx.Room ((asBytes "__get__" ++ name).length + 16 +
      (name.length + 16 + bytes)) (1 + (1 + names)) := room.mono (by omega) (by omega)
  obtain ⟨middle, noAccessor, adds, roomMiddle⟩ :=
    callAccessor_of_holds engine wellFormed holds unmarked rfl (isAccessorName_get name) noGetter
      isName.isText [] roomGetter
  have wellFormedMiddle := adds.changes.wellFormed wellFormed
  have holdsMiddle := holds.mono wellFormed adds.changes nofun
  obtain ⟨key, isFound, isName, addsAfter, roomAfter⟩ :=
    keyOf_of_room wellFormedMiddle isName.proper roomMiddle
  have isRead : middle.getPropertyStr (.ptr address) name =
      (some value, (middle.keyOf name).2) := by
    have holdsAfter := holdsMiddle.mono wellFormedMiddle addsAfter.changes nofun
    rw [getPropertyStr_eq holdsMiddle.isObject, isFound, Option.bind_some,
      getFromChain_of_object holdsAfter.isObject,
      holdsAfter.own_eq (addsAfter.changes.wellFormed wellFormedMiddle) isName, found,
      Option.some_or]
  refine ⟨(middle.keyOf name).2, ?_, adds.trans addsAfter, roomAfter⟩
  rw [jsGetPropertyStr, noAccessor]
  dsimp only
  rw [isRead]
  rfl

/-- A plain object is no function unless it is marked as a closure. -/
theorem jsIsFunction_of_holds (isClass : obj.classId = objectClass)
    (noGetter : asBytes "__get____closure__" ∉ map.keys)
    (notClosure : map.get (asBytes "__closure__") ≠ some (.bool true)) {bytes names : ℕ}
    (room : ctx.Room (61 + bytes) (2 + names)) :
    ∃ after, ctx.jsIsFunction engine (.ptr address) = (false, after) ∧ Adds ctx after ∧
      after.Room bytes names := by
  have isMarked : ∃ value after, ctx.jsGetPropertyStr engine (.ptr address)
      (asBytes "__closure__") = (value, after) ∧ value ≠ .bool true ∧ Adds ctx after ∧
      after.Room bytes names := by
    cases found : map.get (asBytes "__closure__") with
    | some value =>
        obtain ⟨after, isRead, adds, roomAfter⟩ := jsGetPropertyStr_of_holds engine wellFormed
          holds unmarked found (fun _ => noGetter) room
        refine ⟨value, after, isRead, ?_, adds, roomAfter⟩
        rintro rfl
        exact notClosure found
    | none =>
        obtain ⟨after, isRead, adds, roomAfter⟩ := jsGetPropertyStr_closure engine wellFormed
          holds.isObject unmarked (fun after name key adds isMarker isName => by
            rw [(holds.mono wellFormed adds.changes nofun).own_eq
              (adds.changes.wellFormed wellFormed) isName]
            rcases isMarker with rfl | rfl
            · exact (OrderedMap.get_eq_none_iff map _).mpr noGetter
            · exact found) room
        exact ⟨_, after, isRead, nofun, adds, roomAfter⟩
  obtain ⟨value, after, isRead, notTrue, adds, roomAfter⟩ := isMarked
  refine ⟨after, ?_, adds, roomAfter⟩
  rw [jsIsFunction_of_object engine holds.isObject (by rw [isClass]; decide)
    (by rw [isClass]; decide), isRead, decide_eq_false notTrue]

end Plain

/-! ### Arrays -/

/-- The object at the address is an array of these values, without further
properties. -/
structure HoldsItems (ctx : Context) (address : ℕ) (obj : HeapObject)
    (values : List JSValue) : Prop where
  stored : ctx.heap address = some (.object obj)
  isArray : obj.isArray = true
  isClass : obj.classId = arrayClass
  noProps : obj.props = []
  noCount : obj.propCount = 0
  len : obj.arrayLen.toNat = values.length
  items : (obj.elements.getD []).take values.length = values

theorem not_isMarker_natBytes (idx : ℕ) : ¬IsMarker (natBytes idx) := by
  obtain ⟨digit, rest, isText, isDigit, -⟩ := Cache.natBytes_spec idx
  have notMark : digit ≠ 95 := by
    rintro rfl
    cases isDigit
  rw [isText]
  rintro (isAccessor | isClosure)
  · rw [Json.isAccessorName, Bool.or_eq_true, List.isPrefixOf_iff_prefix,
      List.isPrefixOf_iff_prefix] at isAccessor
    rcases isAccessor with isGet | isSet
    · exact notMark (List.cons_prefix_cons.mp isGet).1.symm
    · exact notMark (List.cons_prefix_cons.mp isSet).1.symm
  · exact notMark (List.cons.inj isClosure).1

theorem not_isMarker_length : ¬IsMarker (asBytes "length") := by
  rintro (isAccessor | isClosure)
  · cases isAccessor
  · cases isClosure

section Arrays

variable (engine : Json.Engine) {ctx : Context} (wellFormed : ctx.WellFormed) {address : ℕ}
  {obj : HeapObject} {values : List JSValue} (holds : ctx.HoldsItems address obj values)

include holds in
theorem HoldsItems.isObject : ctx.objectPtr (.ptr address) = some (address, obj) := by
  rw [objectPtr, holds.stored]

include wellFormed holds in
theorem HoldsItems.mono {after : Context} {place : Option ℕ} (changes : Changes place ctx after)
    (elsewhere : place ≠ some address) : after.HoldsItems address obj values :=
  { holds with
    stored := by
      rw [changes.cells address (wellFormed.inUse holds.stored) elsewhere, holds.stored] }

include holds in
theorem HoldsItems.arrayGet {index : ℕ} {value : JSValue} (isItem : values[index]? = some value)
    (inRange : index < 2 ^ 32) : Context.arrayGet obj (UInt32.ofNat index) = value := by
  obtain ⟨isIndex, -⟩ := List.getElem?_eq_some_iff.mp isItem
  have isNat : (UInt32.ofNat index).toNat = index := UInt32.toNat_ofNat_of_lt' inRange
  have isElement : (obj.elements.getD [])[index]? = some value := by
    rw [← holds.items, List.getElem?_take_of_lt isIndex] at isItem
    exact isItem
  rw [Context.arrayGet, if_neg]
  · cases elements : obj.elements with
    | none =>
        rw [elements] at isElement
        cases isElement
    | some items =>
        rw [elements] at isElement
        dsimp only
        rw [isNat, show items[index]? = some value from isElement]
        rfl
  · rw [UInt32.le_iff_toNat_le, isNat, holds.len]
    exact not_le.mpr isIndex

include holds in
/-- An array has no marked names. -/
theorem HoldsItems.not_own {name : Bytes} {key : PropKey} (names : ctx.Names name key)
    (isMarker : IsMarker name) : ctx.own key (name = asBytes "length") address obj = none := by
  cases names with
  | index idx => exact absurd isMarker (not_isMarker_natBytes idx.toNat)
  | atom isText notIndex isUtf8 =>
      have notLength : ¬name = asBytes "length" := by
        rintro rfl
        exact not_isMarker_length isMarker
      change ctx.ownAtom _ _ _ _ = none
      rw [ownAtom, if_neg fun isLength => notLength (of_decide_eq_true isLength.2), findPropValue,
        sideMap, holds.noCount, if_neg (by decide), HeapObject.findProp, holds.noProps]
      rfl

include wellFormed holds

/-- An array is no function. -/
theorem jsIsFunction_of_holdsItems {cells : Set ℕ}
    (unmarked : ctx.Unmarked cells (protoSearchLimit - 1) obj.proto) {bytes names : ℕ}
    (room : ctx.Room (61 + bytes) (2 + names)) :
    ∃ after, ctx.jsIsFunction engine (.ptr address) = (false, after) ∧ Adds ctx after ∧
      after.Room bytes names := by
  obtain ⟨after, isRead, adds, roomAfter⟩ := jsGetPropertyStr_closure engine wellFormed
    holds.isObject unmarked
    (fun after name key adds isMarker isName =>
      (holds.mono wellFormed adds.changes nofun).not_own isName
        (isMarker.imp (fun isGetter => by rw [isGetter]; rfl) id)) room
  refine ⟨after, ?_, adds, roomAfter⟩
  rw [jsIsFunction_of_object engine holds.isObject (by rw [holds.isClass]; decide)
    (by rw [holds.isClass]; decide), isRead]
  rfl

/-- The length of an array. -/
theorem getPropertyStr_length {bytes names : ℕ} (room : ctx.Room (22 + bytes) (1 + names)) :
    ∃ after, ctx.getPropertyStr (.ptr address) (asBytes "length") =
        (some (.int obj.arrayLen.toInt32), after) ∧ Adds ctx after ∧ after.Room bytes names := by
  have proper : ProperName (asBytes "length") := by
    rw [ProperName, show parseIndex (asBytes "length") = none from rfl, Cache.fromUtf8_asBytes]
    rfl
  obtain ⟨key, isKey, isName, adds, roomAfter⟩ :=
    keyOf_of_room wellFormed proper (show ctx.Room ((asBytes "length").length + 16 + bytes) _
      from room)
  have holdsAfter := holds.mono wellFormed adds.changes nofun
  refine ⟨_, ?_, adds, roomAfter⟩
  rw [getPropertyStr_eq holds.isObject, isKey, Option.bind_some,
    getFromChain_of_object holdsAfter.isObject]
  have isLength : (ctx.keyOf (asBytes "length")).2.own key
      (asBytes "length" = asBytes "length") address obj = some (.int obj.arrayLen.toInt32) := by
    generalize isText : asBytes "length" = text at isName
    cases isName with
    | index idx =>
        obtain ⟨digit, rest, isNat, isDigit, -⟩ := Cache.natBytes_spec idx.toNat
        rw [isNat] at isText
        rw [← (List.cons.inj isText).1] at isDigit
        cases isDigit
    | atom isAtom notIndex isUtf8 =>
        change ownAtom _ _ _ _ _ = _
        rw [ownAtom, if_pos ⟨holds.isArray, decide_eq_true rfl⟩]
  rw [isLength, Option.some_or]

end Arrays

end Context
end Script
end MuonJs
