import MuonJs.Script.Arithmetic
import MuonJs.Script.JsonTexts

/-!
# The values of JSON texts

What value on the heap is the one that a JSON text denotes, and how the reader makes
it.  A setter is looked up under a marked name, which an object under construction or
an object that it inherits from may have; where neither has it, a member is set as
data.
-/

namespace MuonJs
/-! ## Maps with a key that is set -/

namespace OrderedMap

variable {κ ν : Type} [DecidableEq κ]

theorem find?_overwrite {key : κ} (value : ν) (probe : κ) {entries : List (κ × ν)}
    (present : key ∈ entries.map Prod.fst) :
    ((overwrite key value entries).find? fun entry => entry.1 = probe).map Prod.snd =
      if probe = key then some value
      else (entries.find? fun entry => entry.1 = probe).map Prod.snd := by
  induction entries with
  | nil => cases present
  | cons entry entries ih =>
      rw [overwrite]
      by_cases isEntry : entry.1 = key
      · rw [if_pos isEntry]
        by_cases same : probe = key
        · rw [if_pos same, List.find?_cons_of_pos (by simp [isEntry, same])]
          rfl
        · have differ : ¬entry.1 = probe := fun isProbe => same (isProbe.symm.trans isEntry)
          rw [if_neg same, List.find?_cons_of_neg (by simp [differ]),
            List.find?_cons_of_neg (by simp [differ])]
      · have later : key ∈ entries.map Prod.fst :=
          (List.mem_cons.mp present).resolve_left (Ne.symm isEntry)
        rw [if_neg isEntry]
        by_cases isProbe : entry.1 = probe
        · have differ : probe ≠ key := fun same => isEntry (isProbe.trans same)
          rw [if_neg differ, List.find?_cons_of_pos (by simp [isProbe]),
            List.find?_cons_of_pos (by simp [isProbe])]
        · rw [List.find?_cons_of_neg (by simp [isProbe]), ih later,
            List.find?_cons_of_neg (by simp [isProbe])]

/-- A key that is set has its value, and every other key keeps its own. -/
theorem get_set (map : OrderedMap κ ν) (key probe : κ) (value : ν) :
    (map.set key value).get probe = if probe = key then some value else map.get probe := by
  by_cases absent : map.get key = none
  · rw [get, entries_set_of_absent absent, List.find?_append]
    by_cases same : probe = key
    · have nothing : (map.entries.find? fun entry => entry.1 = key) = none :=
        Option.map_eq_none_iff.mp absent
      rw [if_pos same, same, nothing, Option.none_or, List.find?_cons_of_pos (by simp)]
      rfl
    · rw [if_neg same, List.find?_cons_of_neg (by simp [Ne.symm same]), List.find?_nil,
        Option.or_none]
      rfl
  · rw [get, entries_set_of_present absent, find?_overwrite value probe]
    · rfl
    · exact not_not.mp fun missing => absent ((get_eq_none_iff map key).mpr missing)

end OrderedMap

namespace Script

open Cache (Bytes F64 asBytes fromUtf8 parseF64 natBytes isAsciiDigit encode IsUtf8)
open Json (Datum)

namespace Context

/-! ## Values that data denote -/

/-- The value is the double next to the number, and an integer of 32 bits is itself. -/
def MeansNumber (ctx : Context) (cells : Set ℕ) (val : JSValue) (negative : Bool)
    (magnitude : ℚ) : Prop :=
  ((∃ n, val = .int n ∧
      i32AsF64 n = F64.round negative (if negative then -magnitude else magnitude)) ∨
    ∃ address, val = .ptr address ∧ address ∈ cells ∧
      ctx.heap address =
        some (.float (F64.round negative (if negative then -magnitude else magnitude)))) ∧
    ∀ n : Int32, (if negative then -magnitude else magnitude) = (n.toInt : ℚ) →
      negative = false ∨ n ≠ 0 → val = .int n

mutual

/-- The value on the heap is what the datum denotes, and lies in the cells: an array has
the items in their order, and of the members of an object with one name the last
counts. -/
def Means (ctx : Context) (cells : Set ℕ) (val : JSValue) : Datum → Prop
  | .null => val = .null
  | .bool truth => val = .bool truth
  | .number negative magnitude => ctx.MeansNumber cells val negative magnitude
  | .string text =>
      ∃ address, val = .ptr address ∧ address ∈ cells ∧
        ctx.heap address = some (.string (encode text))
  | .array items =>
      ∃ address obj values, val = .ptr address ∧ address ∈ cells ∧
        ctx.HoldsItems address obj values ∧ MeansItems ctx cells values items
  | .object members =>
      ∃ address obj map, val = .ptr address ∧ address ∈ cells ∧ ctx.Holds address obj map ∧
        obj.classId = objectClass ∧ (∀ name ∈ map.keys, ∃ member ∈ members, encode member.1 = name) ∧
        MeansMembers ctx cells map members

/-- The elements of an array are the items. -/
def MeansItems (ctx : Context) (cells : Set ℕ) (values : List JSValue) : List Datum → Prop
  | [] => values = []
  | item :: items =>
      ∃ val rest, values = val :: rest ∧ Means ctx cells val item ∧
        MeansItems ctx cells rest items

/-- The properties of an object are the members that no later one replaces. -/
def MeansMembers (ctx : Context) (cells : Set ℕ) (map : OrderedMap Bytes JSValue) :
    List (List Char × Datum) → Prop
  | [] => True
  | (key, item) :: members =>
      (key ∈ members.map Prod.fst ∨
        ∃ val, map.get (encode key) = some val ∧ Means ctx cells val item) ∧
        MeansMembers ctx cells map members

end

section Mono

variable {before after : Context} {place : Option ℕ} {cells cells' : Set ℕ}

theorem MeansNumber.mono (wellFormed : before.WellFormed) (changes : Changes place before after)
    (elsewhere : ∀ address ∈ cells, place ≠ some address) (more : cells ⊆ cells') {val : JSValue}
    {negative : Bool} {magnitude : ℚ} (means : before.MeansNumber cells val negative magnitude) :
    after.MeansNumber cells' val negative magnitude := by
  refine ⟨?_, means.2⟩
  rcases means.1 with isInt | ⟨address, isPtr, isCell, stored⟩
  · exact .inl isInt
  · exact .inr ⟨address, isPtr, more isCell,
      (changes.cells address (wellFormed.inUse stored) (elsewhere address isCell)).trans stored⟩

mutual

/-- A value keeps being what a datum denotes when its cells are not changed. -/
theorem Means.mono (wellFormed : before.WellFormed) (changes : Changes place before after)
    (elsewhere : ∀ address ∈ cells, place ≠ some address) (more : cells ⊆ cells')
    {val : JSValue} : {datum : Datum} → before.Means cells val datum →
      after.Means cells' val datum
  | .null, means | .bool _, means => means
  | .number _ _, means => MeansNumber.mono wellFormed changes elsewhere more means
  | .string _, ⟨address, isPtr, isCell, stored⟩ =>
      ⟨address, isPtr, more isCell,
        (changes.cells address (wellFormed.inUse stored) (elsewhere address isCell)).trans stored⟩
  | .array _, ⟨address, obj, values, isPtr, isCell, holds, means⟩ =>
      ⟨address, obj, values, isPtr, more isCell,
        holds.mono wellFormed changes (elsewhere address isCell),
        MeansItems.mono wellFormed changes elsewhere more means⟩
  | .object _, ⟨address, obj, map, isPtr, isCell, holds, isClass, known, means⟩ =>
      ⟨address, obj, map, isPtr, more isCell,
        holds.mono wellFormed changes (elsewhere address isCell), isClass, known,
        MeansMembers.mono wellFormed changes elsewhere more means⟩

theorem MeansItems.mono (wellFormed : before.WellFormed) (changes : Changes place before after)
    (elsewhere : ∀ address ∈ cells, place ≠ some address) (more : cells ⊆ cells')
    {values : List JSValue} : {items : List Datum} → before.MeansItems cells values items →
      after.MeansItems cells' values items
  | [], means => means
  | _ :: _, ⟨val, rest, isCons, means, others⟩ =>
      ⟨val, rest, isCons, Means.mono wellFormed changes elsewhere more means,
        MeansItems.mono wellFormed changes elsewhere more others⟩

theorem MeansMembers.mono (wellFormed : before.WellFormed) (changes : Changes place before after)
    (elsewhere : ∀ address ∈ cells, place ≠ some address) (more : cells ⊆ cells')
    {map : OrderedMap Bytes JSValue} : {members : List (List Char × Datum)} →
      before.MeansMembers cells map members → after.MeansMembers cells' map members
  | [], _ => trivial
  | (_, _) :: _, ⟨.inl isReplaced, others⟩ =>
      ⟨.inl isReplaced, MeansMembers.mono wellFormed changes elsewhere more others⟩
  | (_, _) :: _, ⟨.inr ⟨val, isValue, means⟩, others⟩ =>
      ⟨.inr ⟨val, isValue, Means.mono wellFormed changes elsewhere more means⟩,
        MeansMembers.mono wellFormed changes elsewhere more others⟩

end

end Mono

section Data

variable {ctx : Context} {cells : Set ℕ}

theorem Means.ne_exception {val : JSValue} {datum : Datum} (means : ctx.Means cells val datum) :
    val ≠ .exception := by
  rintro rfl
  cases datum with
  | null => cases means
  | bool truth => cases means
  | number negative magnitude =>
      obtain ⟨⟨n, isInt, -⟩ | ⟨address, isPtr, -⟩, -⟩ := means
      · cases isInt
      · cases isPtr
  | string text =>
      obtain ⟨address, isPtr, -⟩ := means
      cases isPtr
  | array items =>
      obtain ⟨address, obj, values, isPtr, -⟩ := means
      cases isPtr
  | object members =>
      obtain ⟨address, obj, map, isPtr, -⟩ := means
      cases isPtr

theorem MeansItems.append {values : List JSValue} {done : List Datum} {val : JSValue}
    {item : Datum} (means : ctx.MeansItems cells values done) (isItem : ctx.Means cells val item) :
    ctx.MeansItems cells (values ++ [val]) (done ++ [item]) := by
  induction done generalizing values with
  | nil =>
      rw [show values = [] from means]
      exact ⟨val, [], rfl, isItem, rfl⟩
  | cons first done ih =>
      obtain ⟨head, rest, rfl, isHead, others⟩ := means
      exact ⟨head, rest ++ [val], rfl, isHead, ih others⟩

/-- A member that is set replaces the one of the same name. -/
theorem MeansMembers.append {map : OrderedMap Bytes JSValue} {done : List (List Char × Datum)}
    {key : List Char} {val : JSValue} {item : Datum} (means : ctx.MeansMembers cells map done)
    (isItem : ctx.Means cells val item) :
    ctx.MeansMembers cells (map.set (encode key) val) (done ++ [(key, item)]) := by
  induction done with
  | nil =>
      refine ⟨.inr ⟨val, ?_, isItem⟩, trivial⟩
      rw [OrderedMap.get_set, if_pos rfl]
  | cons first done ih =>
      obtain ⟨name, datum⟩ := first
      refine ⟨?_, ih means.2⟩
      change name ∈ (done ++ [(key, item)]).map Prod.fst ∨ _
      rw [List.map_append, List.mem_append]
      by_cases same : name = key
      · exact .inl (.inr (List.mem_singleton.mpr same))
      · rcases means.1 with isReplaced | ⟨found, isFound, isDatum⟩
        · exact .inl (.inl isReplaced)
        · refine .inr ⟨found, ?_, isDatum⟩
          rw [OrderedMap.get_set, if_neg fun both => same (Cache.encode_injective both)]
          exact isFound

end Data

/-! ## Values that are made -/

/-- An integer of 32 bits is rounded to itself. -/
theorem round_toInt {n : Int32} {negative : Bool} (signed : negative = false ∨ n ≠ 0) :
    F64.round negative (n.toInt : ℚ) = i32AsF64 n := by
  by_cases isZero : n = 0
  · rcases signed with rfl | nonzero
    · rw [isZero]
      rfl
    · exact absurd isZero nonzero
  · have nonzero : n.toInt ≠ 0 := fun same => isZero (Int32.toInt_inj.mp same)
    rw [F64.round_intCast negative nonzero]
    rfl

/-- A number is made. -/
theorem numberToValue_of_room {ctx : Context} {bytes names : ℕ} {cells : Set ℕ}
    (fresh : ∀ address, ctx.mem.offset ≤ address → address ∈ cells) (negative : Bool)
    (magnitude : ℚ) (room : ctx.Room (23 + bytes) names) :
    ∃ val after,
      ctx.numberToValue (F64.round negative (if negative then -magnitude else magnitude)) =
        (val, after) ∧ Adds ctx after ∧ after.Room bytes names ∧
        after.MeansNumber cells val negative magnitude := by
  generalize isSigned : (if negative then -magnitude else magnitude) = signed
  have exact_int : ∀ n : Int32, signed = (n.toInt : ℚ) → negative = false ∨ n ≠ 0 →
      i32AsF64 n = F64.round negative signed := by
    rintro n rfl isKept
    exact (round_toInt isKept).symm
  by_cases isInt : ∃ n : Int32, i32AsF64 n = F64.round negative signed
  · obtain ⟨n, isNumber⟩ := isInt
    refine ⟨.int n, ctx, ?_, .refl ctx, room.mono (Nat.le_add_left _ _) le_rfl,
      .inl ⟨n, rfl, by rw [isSigned]; exact isNumber⟩, ?_⟩
    · rw [← isNumber, Json.numberToValue_i32AsF64]
    · intro other isOther isKept
      rw [isSigned] at isOther
      have same := congrArg asI32 (isNumber.trans (exact_int other isOther isKept).symm)
      rw [Json.asI32_i32AsF64, Json.asI32_i32AsF64] at same
      rw [same]
  · obtain ⟨address, after, allocated, adds, roomAfter, isNew, -, stored⟩ :=
      allocCell_of_room (.float (F64.round negative signed)) (by omega : 0 < 16)
        (room.mono (by omega : 16 + 7 + bytes ≤ _) le_rfl)
    have notInt : ¬((i32AsF64 (asI32 (F64.round negative signed))).partialCmp
        (F64.round negative signed) = some .eq ∧
        ((F64.round negative signed).key ≠ 0 ∨
          (F64.round negative signed).bits.toNat < 2 ^ 63)) :=
      fun both => isInt ⟨_, i32AsF64_asI32 both⟩
    have isAlloc : ctx.allocFloat (F64.round negative signed) = some (address, after) := allocated
    refine ⟨.ptr address, after, ?_, adds, roomAfter,
      .inr ⟨address, rfl, fresh address isNew, by rw [isSigned]; exact stored⟩, ?_⟩
    · rw [numberToValue, if_neg notInt, newFloat64, isAlloc]
    · intro n isInteger isKept
      rw [isSigned] at isInteger
      exact absurd ⟨n, exact_int n isInteger isKept⟩ isInt

/-- A property that an object under construction has is set again. -/
theorem setPropValue_again {ctx : Context} {address : ℕ} {obj : HeapObject}
    {map : OrderedMap Bytes JSValue} (wellFormed : ctx.WellFormed)
    (filling : ctx.Filling address obj map) {name : Bytes} {key : PropKey}
    (isName : ctx.Names name key) (present : map.get name ≠ none) (value : JSValue)
    {bytes names : ℕ} (room : ctx.Room bytes names) :
    ∃ obj' after, ctx.setPropValue address obj key value = (true, after) ∧
      Edits address ctx after ∧ after.Room bytes names ∧
      after.Filling address obj' (map.set name value) ∧ obj'.proto = obj.proto := by
  have inUse := wellFormed.inUse filling.stored
  have isFound : obj.findProp key ≠ none := by
    rw [filling.findProp_eq wellFormed isName]
    exact present
  have safely : ctx.AddsSafely address obj key := fun absent => absurd absent isFound
  have changes := setPropValue_changes inUse obj key value
  suffices isDone : ∃ after, ctx.setPropValue address obj key value = (true, after) ∧
      after.heap address =
        some (.object { obj with props := HeapObject.overwrite key value obj.props }) ∧
      after.objectProto = ctx.objectProto ∧ after.Room bytes names ∧
      (obj.propCount ≤ propMapThreshold → after.propMaps address = none) by
    obtain ⟨after, isSet, stored, proto, roomAfter, noMap⟩ := isDone
    rw [isSet] at changes
    exact ⟨_, after, isSet, ⟨changes, proto⟩, roomAfter,
      filling.set wellFormed isName safely isSet stored filling.isClass noMap, rfl⟩
  by_cases large : propMapThreshold < obj.propCount
  · obtain ⟨side, isSide, agrees⟩ := filling.sync large
    have hasSide : ctx.sideMap address obj = some side := by
      rw [sideMap, if_pos large, isSide]
    exact ⟨_, setPropValue_of_mapped_present value hasSide (by rw [agrees key]; exact isFound),
      Function.update_self _ _ _, rfl, ⟨room.memory, room.atoms⟩,
      fun few => absurd large (not_lt.mpr few)⟩
  · have noSide : ctx.sideMap address obj = none := by
      rw [sideMap, if_neg large]
    exact ⟨_, setPropValue_of_present value noSide isFound, Function.update_self _ _ _, rfl,
      ⟨room.memory, room.atoms⟩, filling.noMap⟩

/-- No setter is found for a name whose setter is neither held nor inherited. -/
theorem callAccessor_of_lacks (engine : Json.Engine) {ctx : Context} (wellFormed : ctx.WellFormed)
    {address : ℕ} {obj : HeapObject} {map : OrderedMap Bytes JSValue}
    (holds : ctx.Holds address obj map) {cells : Set ℕ} {setters : Set Bytes}
    (lacks : ctx.Lacks cells setters (protoSearchLimit - 1) obj.proto) {name : Bytes}
    (notHeld : Json.isAccessorName name = false → asBytes "__set__" ++ name ∉ map.keys)
    (notInherited : Json.isAccessorName name = false → asBytes "__set__" ++ name ∈ setters)
    (isText : (fromUtf8 name).isSome) (args : List JSValue) {bytes names : ℕ}
    (room : ctx.Room ((asBytes "__set__" ++ name).length + 16 + bytes) (1 + names)) :
    ∃ after, ctx.callAccessor engine (.ptr address) "__set__" name args = (none, after) ∧
      Adds ctx after ∧ after.Room bytes names := by
  cases notAccessor : Json.isAccessorName name with
  | true =>
      refine ⟨ctx, ?_, .refl ctx, room.mono (Nat.le_add_left _ _) (Nat.le_add_left _ _)⟩
      rw [callAccessor, notAccessor, if_pos rfl]
  | false =>
      have proper : ProperName (asBytes "__set__" ++ name) := properName_accessor rfl isText
      obtain ⟨found, after, isFound, nothing, adds, roomAfter⟩ := getPropertyStr_of_lacks wellFormed
        holds.isObject proper (notInherited notAccessor) lacks (fun key isName => by
          obtain ⟨-, -, -, adds, -⟩ := keyOf_of_room wellFormed proper room
          have holdsAfter := holds.mono wellFormed adds.changes (Option.some_ne_none _).symm
          rw [holdsAfter.own_eq (adds.changes.wellFormed wellFormed) isName,
            OrderedMap.get_eq_none_iff]
          exact notHeld notAccessor) room
      refine ⟨after, ?_, adds, roomAfter⟩
      rw [callAccessor, notAccessor, if_neg Bool.false_ne_true, isFound]
      rcases nothing with rfl | rfl
      · rfl
      · exact if_pos rfl

/-- A property of an object under construction is set through the API. -/
theorem jsSetPropertyStr_of_lacks (engine : Json.Engine) {ctx : Context}
    (wellFormed : ctx.WellFormed) {address : ℕ} {obj : HeapObject}
    {map : OrderedMap Bytes JSValue} (filling : ctx.Filling address obj map) {cells : Set ℕ}
    {setters : Set Bytes} (lacks : ctx.Lacks cells setters (protoSearchLimit - 1) obj.proto)
    {name : Bytes} (notHeld : Json.isAccessorName name = false → asBytes "__set__" ++ name ∉ map.keys)
    (notInherited : Json.isAccessorName name = false → asBytes "__set__" ++ name ∈ setters)
    (proper : ProperName name) (isText : (fromUtf8 name).isSome) (value : JSValue)
    {bytes names : ℕ} (room : ctx.Room (2 * name.length + 70 + bytes) (2 + names)) :
    ∃ obj' after, ctx.jsSetPropertyStr engine (.ptr address) name value = (value, after) ∧
      Edits address ctx after ∧ after.Room bytes names ∧
      after.Filling address obj' (map.set name value) ∧ obj'.proto = obj.proto := by
  have isLength := @length_accessor "__set__" rfl name
  obtain ⟨middle, noAccessor, adds, roomMiddle⟩ :=
    callAccessor_of_lacks engine wellFormed filling.toHolds lacks notHeld notInherited isText
      [value] (room.mono (by omega : (asBytes "__set__" ++ name).length + 16 +
        (name.length + 16 + (31 + bytes)) ≤ _) (by omega : 1 + (1 + names) ≤ _))
  have wellFormedMiddle := adds.changes.wellFormed wellFormed
  have fillingMiddle := filling.mono wellFormed adds.changes
  obtain ⟨key, isKey, isName, addsKey, roomKey⟩ :=
    keyOf_of_room wellFormedMiddle proper roomMiddle
  have wellFormedKey := addsKey.changes.wellFormed wellFormedMiddle
  have fillingKey := fillingMiddle.mono wellFormedMiddle addsKey.changes
  have set : ∃ obj' after, (middle.keyOf name).2.setPropValue address obj key value =
      (true, after) ∧ Edits address (middle.keyOf name).2 after ∧ after.Room bytes names ∧
      after.Filling address obj' (map.set name value) ∧ obj'.proto = obj.proto := by
    by_cases absent : map.get name = none
    · obtain ⟨after, isSet, edits, roomAfter, filled⟩ :=
        setPropValue_of_room wellFormedKey fillingKey isName absent value roomKey
      exact ⟨_, after, isSet, edits, roomAfter, filled, rfl⟩
    · exact setPropValue_again wellFormedKey fillingKey isName absent value
        (roomKey.mono (Nat.le_add_left _ _) le_rfl)
  obtain ⟨obj', after, isSet, edits, roomAfter, filled, sameProto⟩ := set
  refine ⟨obj', after, ?_, .after (adds.trans addsKey) edits, roomAfter, filled, sameProto⟩
  have isDone : middle.setPropertyStr (.ptr address) name value = (true, after) := by
    rw [setPropertyStr_eq fillingMiddle.isObject (.of_plain fillingMiddle.plain name), isKey]
    exact isSet
  rw [jsSetPropertyStr, noAccessor]
  dsimp only
  rw [isDone]
  rfl

end Context
end Script
end MuonJs
