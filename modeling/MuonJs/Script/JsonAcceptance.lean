import MuonJs.Script.JsonMeaning
import MuonJs.Script.JsonRoundTrip

/-!
# The JSON texts that are accepted

The reader accepts every JSON text and returns the value that it denotes, as long as
every name is stored under itself and no member is taken for a setter of a later one.
-/

namespace MuonJs
namespace Script

open Cache (Bytes F64 asBytes fromUtf8 parseF64 natBytes isAsciiDigit encode IsUtf8)

namespace Json

/-! ## Costs -/

namespace Datum

mutual

/-- Memory that reading a datum takes at most. -/
def readBytes : Datum → ℕ
  | .number _ _ => 23
  | .string text => (encode text).length + 16
  | .array items => 87 + itemsReadBytes items
  | .object members => 87 + membersReadBytes members
  | _ => 0

@[inherit_doc readBytes]
def itemsReadBytes : List Datum → ℕ
  | [] => 0
  | item :: items => readBytes item + 39 + itemsReadBytes items

@[inherit_doc readBytes]
def membersReadBytes : List (List Char × Datum) → ℕ
  | [] => 0
  | (key, item) :: members =>
      readBytes item + (2 * (encode key).length + 70) + membersReadBytes members

end

mutual

/-- Atoms that reading a datum takes at most. -/
def readNames : Datum → ℕ
  | .array items => itemsReadNames items
  | .object members => membersReadNames members
  | _ => 0

@[inherit_doc readNames]
def itemsReadNames : List Datum → ℕ
  | [] => 0
  | item :: items => readNames item + itemsReadNames items

@[inherit_doc readNames]
def membersReadNames : List (List Char × Datum) → ℕ
  | [] => 0
  | (_, item) :: members => readNames item + 2 + membersReadNames members

end

/-! ## Data that are stored as they are -/

mutual

/-- It holds of a datum and of all its parts. -/
def All (holds : Datum → Prop) : Datum → Prop
  | .array items => holds (.array items) ∧ AllItems holds items
  | .object members => holds (.object members) ∧ AllMembers holds members
  | datum => holds datum

@[inherit_doc All]
def AllItems (holds : Datum → Prop) : List Datum → Prop
  | [] => True
  | item :: items => All holds item ∧ AllItems holds items

@[inherit_doc All]
def AllMembers (holds : Datum → Prop) : List (List Char × Datum) → Prop
  | [] => True
  | (_, item) :: members => All holds item ∧ AllMembers holds members

end

/-- No name comes after the one that marks its setter. -/
def SetterFree (names : List Bytes) : Prop :=
  ∀ before name after, names = before ++ name :: after → isAccessorName name = false →
    asBytes "__set__" ++ name ∉ before

/-- An array with a length in range, or an object whose names are stored under
themselves, whose setters are among these names, and none of which is held before. -/
def Storable (setters : Set Bytes) : Datum → Prop
  | .array items => items.length ≤ 2 ^ 31
  | .object members =>
      (∀ member ∈ members, Context.ProperName (encode member.1) ∧
        (isAccessorName (encode member.1) = false →
          asBytes "__set__" ++ encode member.1 ∈ setters)) ∧
        SetterFree (members.map fun member => encode member.1)
  | _ => True

end Datum

/-! ## The context of the reader -/

/-- New cells count among the cells, and objects inherit none of the setters. -/
structure Receptive (engine : Engine) (ctx : Context) (cells : Set ℕ) (setters : Set Bytes) :
    Prop where
  wellFormed : ctx.WellFormed
  fresh : ∀ address, ctx.mem.offset ≤ address → address ∈ cells
  objects : ctx.Lacks cells setters (protoSearchLimit - 1) ctx.objectProto
  isSet : engine.arrays.proto ≠ .undefined

namespace Receptive

variable {engine : Engine} {ctx after : Context} {cells : Set ℕ} {setters : Set Bytes}
  (receptive : Receptive engine ctx cells setters)

include receptive

theorem adds (adds : Context.Adds ctx after) : Receptive engine after cells setters where
  wellFormed := adds.changes.wellFormed receptive.wellFormed
  fresh := fun address isNew => receptive.fresh address (adds.changes.offset.trans isNew)
  objects := by
    rw [adds.proto]
    exact receptive.objects.mono receptive.wellFormed adds.changes nowhere
  isSet := receptive.isSet

/-- A place in use may be left out of the cells when it is new. -/
theorem without (adds : Context.Adds ctx after) {place : ℕ} (isNew : ctx.mem.offset ≤ place)
    (inUse : place < after.mem.offset) : Receptive engine after (cells \ {place}) setters := by
  have kept (address : ℕ) (isCell : address ∈ cells) (isOld : address < ctx.mem.offset) :
      address ∈ cells \ {place} := by
    refine ⟨isCell, ?_⟩
    rintro rfl
    omega
  have after := receptive.adds adds
  refine ⟨after.wellFormed, fun address isFree => ⟨after.fresh address isFree, ?_⟩, ?_,
    receptive.isSet⟩
  · rintro rfl
    omega
  · rw [adds.proto]
    exact (receptive.objects.inUse receptive.wellFormed kept).mono receptive.wellFormed
      adds.changes nowhere

theorem edits {place : ℕ} (edits : Context.Edits place ctx after) (elsewhere : place ∉ cells) :
    Receptive engine after cells setters := by
  have other : ∀ address ∈ cells, some place ≠ some address := by
    rintro address isCell ⟨⟩
    exact elsewhere isCell
  refine ⟨edits.changes.wellFormed receptive.wellFormed,
    fun address isNew => receptive.fresh address (edits.changes.offset.trans isNew), ?_,
    receptive.isSet⟩
  rw [edits.proto]
  exact receptive.objects.mono receptive.wellFormed edits.changes other

end Receptive

/-! ## White space before a value -/

theorem parseValue_skip (engine : Engine) (fuel : ℕ) (ctx : Context) {input start : Bytes}
    (same : skipWs input = skipWs start) :
    parseValue engine fuel ctx input = parseValue engine fuel ctx start := by
  cases fuel with
  | zero => rfl
  | succ fuel => rw [parseValue, parseValue, same]

theorem parseMembers_skip (engine : Engine) (read : JsonReader) (obj : JSValue) (turns : ℕ)
    (ctx : Context) {input start : Bytes} (same : skipWs input = skipWs start) :
    parseMembers engine read obj turns ctx input =
      parseMembers engine read obj turns ctx start := by
  cases turns with
  | zero => rfl
  | succ turns => rw [parseMembers, parseMembers, same]

/-! ## Values that are read -/

theorem parseValue_quote (engine : Engine) (fuel : ℕ) (ctx : Context) (rest : Bytes) :
    parseValue engine (fuel + 1) ctx (34 :: rest) =
      some ((parseStringLoop rest).bind fun (bytes, rest) =>
        if (fromUtf8 bytes).isSome then
          let (val, ctx) := ctx.newString bytes
          some (val, rest, ctx)
        else none) := by
  rw [parseValue, skipWs_cons (by exact rfl)]
  rfl

section Leaves

variable {engine : Engine} {ctx : Context} {cells : Set ℕ} {bytes names : ℕ} (fuel : ℕ)
  (fresh : ∀ address, ctx.mem.offset ≤ address → address ∈ cells)

include fresh

/-- A number is read. -/
theorem parseValue_number_reads {text : Bytes} {negative : Bool} {magnitude : ℚ}
    (isNumber : IsNumber text negative magnitude) {rest : Bytes} (ends : EndsNumber rest)
    (room : ctx.Room (23 + bytes) names) :
    ∃ val after, parseValue engine (fuel + 1) ctx (text ++ rest) =
        some (some (val, rest, after)) ∧ Context.Adds ctx after ∧ after.Room bytes names ∧
      after.MeansNumber cells val negative magnitude := by
  obtain ⟨val, after, made, adds, roomAfter, means⟩ :=
    Context.numberToValue_of_room fresh negative magnitude room
  obtain ⟨byte, tail, isText, isByte⟩ := isNumber.starts
  have taken : parseJsonNumber ctx (text ++ rest) = some (val, rest, after) := by
    rw [parseJsonNumber, isNumber.take ends, Option.bind_some]
    dsimp only
    rw [isNumber.parseF64_eq, Option.map_some, made]
  refine ⟨val, after, ?_, adds, roomAfter, means⟩
  rw [isText, List.cons_append, parseValue_number engine fuel ctx isByte, ← List.cons_append,
    ← isText, taken]

/-- A string is read. -/
theorem parseValue_string_reads {input rest : Bytes} {text : List Char}
    (chars : IsChars input text rest) (room : ctx.Room ((encode text).length + 16 + bytes) names) :
    ∃ val after, parseValue engine (fuel + 1) ctx (34 :: input) =
        some (some (val, rest, after)) ∧ Context.Adds ctx after ∧ after.Room bytes names ∧
      after.Means cells val (.string text) := by
  obtain ⟨address, after, created, adds, roomAfter, isNew, stored⟩ :=
    Context.newString_of_room room
  have isText : (fromUtf8 (encode text)).isSome = true :=
    (Cache.isSome_fromUtf8_iff _).mpr ⟨text, rfl⟩
  refine ⟨.ptr address, after, ?_, adds, roomAfter, address, rfl, fresh address isNew, stored⟩
  rw [parseValue_quote, chars.read, Option.bind_some]
  dsimp only
  rw [if_pos isText, created]

end Leaves

section Loops

variable (read : JsonReader) (turns : ℕ) {ctx after : Context} {val : JSValue}

theorem afterElement_blank_close {arr : JSValue} {count : Int32}
    (isPushed : ctx.jsArrayPush arr val = (.int count, after)) {left rest : Bytes}
    (behind : IsBlank left (93 :: rest)) :
    afterElement read arr turns (val, left, ctx) = some (some (rest, after)) := by
  rw [afterElement, isPushed]
  dsimp only
  rw [behind.skipWs_solid rfl]
  rfl

theorem afterElement_blank_comma {arr : JSValue} {count : Int32}
    (isPushed : ctx.jsArrayPush arr val = (.int count, after)) {left next : Bytes}
    (behind : IsBlank left (44 :: next)) :
    afterElement read arr turns (val, left, ctx) =
      parseElements read arr turns after (skipWs next) := by
  rw [afterElement, isPushed]
  dsimp only
  rw [behind.skipWs_solid rfl]
  rfl

theorem afterMember_blank_close {engine : Engine} {obj : JSValue} {key : Bytes}
    (isSet : ctx.jsSetPropertyStr engine obj key val = (val, after))
    (notException : val ≠ .exception) {left rest : Bytes} (behind : IsBlank left (125 :: rest)) :
    afterMember engine read obj key turns (val, left, ctx) = some (some (rest, after)) := by
  rw [afterMember, isSet, behind.skipWs_solid rfl]
  cases val with
  | exception => exact absurd rfl notException
  | _ => rfl

theorem afterMember_blank_comma {engine : Engine} {obj : JSValue} {key : Bytes}
    (isSet : ctx.jsSetPropertyStr engine obj key val = (val, after))
    (notException : val ≠ .exception) {left next : Bytes} (behind : IsBlank left (44 :: next)) :
    afterMember engine read obj key turns (val, left, ctx) =
      parseMembers engine read obj turns after next := by
  rw [afterMember, isSet, behind.skipWs_solid rfl]
  cases val with
  | exception => exact absurd rfl notException
  | _ => rfl

/-- A name is read, and the value after it. -/
theorem parseMembers_name (engine : Engine) (obj : JSValue) (ctx : Context)
    {input name colon value : Bytes} {key : List Char} (beforeName : IsBlank input (34 :: name))
    (chars : IsChars name key colon) (beforeColon : IsBlank colon (58 :: value)) :
    parseMembers engine read obj (turns + 1) ctx input =
      (read ctx value).andThen (afterMember engine read obj (encode key) turns) := by
  have isText : ¬(fromUtf8 (encode key)).isNone = true := by
    rw [Option.isNone_iff_eq_none, ← ne_eq, ← Option.isSome_iff_ne_none]
    exact (Cache.isSome_fromUtf8_iff _).mpr ⟨key, rfl⟩
  rw [parseMembers, beforeName.skipWs_solid rfl, parseStringBytes, chars.read]
  dsimp only
  rw [if_neg isText, beforeColon.skipWs_solid rfl]
  rfl

end Loops

/-! ## Arrays and objects that are opened -/

theorem parseValue_array_blank {engine : Engine} {fuel : ℕ} {ctx after : Context} {arr : JSValue}
    (created : Context.jsNewArray engine.arrays ctx = (arr, after)) (notException : arr ≠ .exception)
    {input rest : Bytes} (blank : IsBlank input (93 :: rest)) :
    parseValue engine (fuel + 1) ctx (91 :: input) = some (some (arr, rest, after)) := by
  rw [parseValue_bracket, created, blank.skipWs_solid rfl]
  cases arr with
  | exception => exact absurd rfl notException
  | _ => rfl

theorem parseValue_array_elements {engine : Engine} {fuel : ℕ} {ctx after : Context}
    {arr : JSValue} (created : Context.jsNewArray engine.arrays ctx = (arr, after))
    (notException : arr ≠ .exception) {input rest : Bytes} {items : List Datum}
    (elements : IsElements input items rest) :
    parseValue engine (fuel + 1) ctx (91 :: input) =
      (parseElements (parseValue engine fuel) arr fuel after (skipWs input)).andThen
        fun (rest, ctx) => some (some (arr, rest, ctx)) := by
  have isStart : ∃ byte tail, skipWs input = byte :: tail ∧ byte ≠ 93 := by
    obtain ⟨start, datum, left, before, value⟩ : ∃ start datum left, IsBlank input start ∧
        IsValue start datum left := by
      cases elements with
      | last before value _ => exact ⟨_, _, _, before, value⟩
      | more before value _ _ => exact ⟨_, _, _, before, value⟩
    obtain ⟨byte, tail, rfl, starts⟩ := value.starts
    exact ⟨byte, tail, before.skipWs_solid starts.solid.1, starts.solid.2.1⟩
  obtain ⟨byte, tail, isStart, notClose⟩ := isStart
  rw [parseValue_bracket, created, isStart]
  cases arr with
  | exception => exact absurd rfl notException
  | _ =>
      dsimp only
      split
      · rename_i same
        exact absurd (List.cons.inj same).1 notClose
      · rfl

theorem parseValue_object_blank {engine : Engine} {fuel : ℕ} {ctx after : Context} {place : ℕ}
    (created : ctx.jsNewObject = (.ptr place, after)) {input rest : Bytes}
    (blank : IsBlank input (125 :: rest)) :
    parseValue engine (fuel + 1) ctx (123 :: input) = some (some (.ptr place, rest, after)) := by
  rw [parseValue_brace, created, blank.skipWs_solid rfl]
  rfl

theorem parseValue_object_members {engine : Engine} {fuel : ℕ} {ctx after : Context} {place : ℕ}
    (created : ctx.jsNewObject = (.ptr place, after)) {input rest : Bytes}
    {members : List (List Char × Datum)} (isMembers : IsMembers input members rest) :
    parseValue engine (fuel + 1) ctx (123 :: input) =
      (parseMembers engine (parseValue engine fuel) (.ptr place) fuel after input).andThen
        fun (rest, ctx) => some (some (.ptr place, rest, ctx)) := by
  have isStart : ∃ name, skipWs input = 34 :: name := by
    cases isMembers with
    | last beforeName => exact ⟨_, beforeName.skipWs_solid rfl⟩
    | more beforeName => exact ⟨_, beforeName.skipWs_solid rfl⟩
  obtain ⟨name, isStart⟩ := isStart
  have again : skipWs (skipWs input) = skipWs input := (isBlank_skipWs input).skipWs_eq.symm
  rw [← parseMembers_skip _ _ _ _ _ again, parseValue_brace, created, isStart]
  rfl

/-- White space before elements may be left out. -/
theorem IsElements.skip {input rest : Bytes} {items : List Datum}
    (elements : IsElements input items rest) : IsElements (skipWs input) items rest := by
  have skipped {start left : Bytes} {datum : Datum} (before : IsBlank input start)
      (value : IsValue start datum left) : IsBlank (skipWs input) start := by
    obtain ⟨byte, tail, rfl, starts⟩ := value.starts
    rw [before.skipWs_solid starts.solid.1]
    exact .none _
  cases elements with
  | last before value behind => exact .last (skipped before value) value behind
  | more before value behind elements =>
      exact .more (skipped before value) value behind elements

/-! ## Data that are read -/

/-- What a value leaves is shorter than its text. -/
theorem length_lt_of_read {engine : Engine} {ctx : Context} {fuel : ℕ} {input rest : Bytes} {val : JSValue} {after : Context}
    (enough : input.length < fuel)
    (isRead : parseValue engine fuel ctx input = some (some (val, rest, after))) :
    rest.length < input.length := by
  obtain ⟨result, isResult, shorter⟩ := parseValue_decides engine fuel ctx enough
  exact shorter _ (Option.some.inj (isResult.symm.trans isRead))

mutual

/-- A storable datum is read from its text. -/
theorem parseValue_reads {engine : Engine} {setters : Set Bytes} : (datum : Datum) →
    ∀ {fuel : ℕ} {ctx : Context} {cells : Set ℕ} {input rest : Bytes} {bytes names : ℕ},
    IsValue input datum rest → EndsNumber rest → input.length < fuel →
    datum.All (Datum.Storable setters) → Receptive engine ctx cells setters →
    ctx.Room (datum.readBytes + bytes) (datum.readNames + names) →
    ∃ val after, parseValue engine fuel ctx input = some (some (val, rest, after)) ∧
      Context.Adds ctx after ∧ after.Room bytes names ∧ after.Means cells val datum
  | _, 0, _, _, _, _, _, _, _, _, enough, _, _, _ => absurd enough (Nat.not_lt_zero _)
  | .null, fuel + 1, ctx, cells, input, rest, bytes, names, value, _, _, _, _, room => by
      cases value
      exact ⟨.null, ctx, parseValue_literal engine fuel ctx (.inl ⟨rfl, rfl⟩), .refl ctx,
        room.mono (Nat.le_add_left _ _) (Nat.le_add_left _ _), rfl⟩
  | .bool truth, fuel + 1, ctx, cells, input, rest, bytes, names, value, _, _, _, _, room => by
      have kept : ctx.Room bytes names :=
        room.mono (Nat.le_add_left _ _) (Nat.le_add_left _ _)
      cases value with
      | isFalse =>
          exact ⟨.bool false, ctx, parseValue_literal engine fuel ctx (.inr (.inr ⟨rfl, rfl⟩)),
            .refl ctx, kept, rfl⟩
      | isTrue =>
          exact ⟨.bool true, ctx, parseValue_literal engine fuel ctx (.inr (.inl ⟨rfl, rfl⟩)),
            .refl ctx, kept, rfl⟩
  | .number negative magnitude, fuel + 1, ctx, cells, input, rest, bytes, names, value, ends, _, _,
      receptive, room => by
      cases value with
      | number isNumber =>
          exact parseValue_number_reads fuel receptive.fresh isNumber ends
            (room.mono le_rfl (Nat.le_add_left _ _))
  | .string text, fuel + 1, ctx, cells, input, rest, bytes, names, value, _, _, _, receptive,
      room => by
      cases value with
      | string chars =>
          exact parseValue_string_reads fuel receptive.fresh chars
            (room.mono le_rfl (Nat.le_add_left _ _))
  | .array items, fuel + 1, ctx, cells, input, rest, bytes, names, value, _, enough, storable,
      receptive, room => by
      rw [Datum.readBytes, Datum.readNames, Nat.add_assoc] at room
      obtain ⟨place, obj, middle, created, adds, roomMiddle, isNew, inUse, growing, -, noCredit⟩ :=
        Context.jsNewArray_of_room receptive.isSet room
      have receptiveInside := receptive.without adds isNew inUse
      have array (after : Context) (grown : HeapObject) (values : List JSValue)
          (edits : Context.Edits place middle after) (isGrown : after.Growing place grown values)
          (isArray : after.MeansItems (cells \ {place}) values items) :
          Context.Adds ctx after ∧ after.Means cells (.ptr place) (.array items) := by
        have addsAfter := adds.edit isNew edits
        exact ⟨addsAfter, place, grown, values, rfl, receptive.fresh place isNew,
          isGrown.toHoldsItems, isArray.mono (receptive.adds addsAfter).wellFormed
            (.refl none after) nowhere Set.sdiff_subset⟩
      cases value with
      | emptyArray blank =>
          obtain ⟨addsAfter, means⟩ := array middle obj [] ⟨.refl _ _, rfl⟩ growing rfl
          exact ⟨.ptr place, middle, parseValue_array_blank created (by rintro ⟨⟩) blank,
            addsAfter, roomMiddle.mono (by omega) (by omega), means⟩
      | @array input _ _ elements =>
          have skipLength := length_skipWs_le input
          rw [List.length_cons] at enough
          obtain ⟨after, grown, values, isLoop, edits, roomAfter, isGrown, isArray⟩ :=
            parseElements_reads items elements.skip (by omega : (skipWs input).length < fuel)
              (by omega : (skipWs input).length < fuel) storable.2 receptiveInside
              (fun isCell => isCell.2 rfl) growing
              (show middle.MeansItems (cells \ {place}) [] [] from rfl)
              (by rw [List.length_nil, Nat.zero_add]; exact storable.1)
              (by rw [noCredit]; exact roomMiddle)
          obtain ⟨addsAfter, means⟩ := array after grown values edits isGrown isArray
          refine ⟨.ptr place, after, ?_, addsAfter, roomAfter, means⟩
          rw [parseValue_array_elements created (by rintro ⟨⟩) elements, isLoop]
          rfl
  | .object members, fuel + 1, ctx, cells, input, rest, bytes, names, value, _, enough, storable,
      receptive, room => by
      rw [Datum.readBytes, Datum.readNames, Nat.add_assoc] at room
      obtain ⟨place, obj, middle, created, adds, roomMiddle, isNew, inUse, filling, isProto⟩ :=
        Context.jsNewObject_of_room receptive.wellFormed room
      have receptiveInside := receptive.without adds isNew inUse
      have object (after : Context) (filled : HeapObject) (map : OrderedMap Bytes JSValue)
          (edits : Context.Edits place middle after) (isFilled : after.Filling place filled map)
          (known : ∀ name ∈ map.keys, ∃ member ∈ members, encode member.1 = name)
          (isObject : after.MeansMembers (cells \ {place}) map members) :
          Context.Adds ctx after ∧ after.Means cells (.ptr place) (.object members) := by
        have addsAfter := adds.edit isNew edits
        exact ⟨addsAfter, place, filled, map, rfl, receptive.fresh place isNew,
          isFilled.toHolds, isFilled.isClass, known,
          isObject.mono (receptive.adds addsAfter).wellFormed (.refl none after) nowhere
            Set.sdiff_subset⟩
      have noKeys (name : Bytes) (isKey : name ∈ (OrderedMap.empty : OrderedMap Bytes JSValue).keys)
          {members : List (List Char × Datum)} : ∃ member ∈ members, encode member.1 = name := by
        cases isKey
      cases value with
      | emptyObject blank =>
          obtain ⟨addsAfter, means⟩ := object middle obj .empty ⟨.refl _ _, rfl⟩ filling
            (fun name isKey => noKeys name isKey) trivial
          exact ⟨.ptr place, middle, parseValue_object_blank created blank, addsAfter,
            roomMiddle.mono (by omega) (by omega), means⟩
      | @object input _ _ isMembers =>
          rw [List.length_cons] at enough
          have lacks : middle.Lacks (cells \ {place}) setters (protoSearchLimit - 1) obj.proto := by
            rcases isProto with isDefault | isNull
            · rw [isDefault, ← adds.proto]
              exact receptiveInside.objects
            · rw [isNull]
              exact .inl rfl
          obtain ⟨after, filled, map, isLoop, edits, roomAfter, isFilled, known, isObject⟩ :=
            @parseMembers_reads engine setters members fuel fuel middle (cells \ {place}) input rest
              place obj .empty [] bytes names isMembers (by omega : input.length < fuel)
              (by omega : input.length < fuel) storable.2 storable.1 receptiveInside
              (fun isCell => isCell.2 rfl) filling lacks (fun name isKey => noKeys name isKey)
              trivial roomMiddle
          obtain ⟨addsAfter, means⟩ := object after filled map edits isFilled known isObject
          refine ⟨.ptr place, after, ?_, addsAfter, roomAfter, means⟩
          rw [parseValue_object_members created isMembers, isLoop]
          rfl

/-- The loop over the elements reads the remaining items. -/
theorem parseElements_reads {engine : Engine} {setters : Set Bytes} : (items : List Datum) →
    ∀ {fuel turns : ℕ} {ctx : Context} {cells : Set ℕ} {input rest : Bytes} {place : ℕ}
      {obj : HeapObject} {values : List JSValue} {done : List Datum} {bytes names : ℕ},
    IsElements input items rest → input.length < fuel → input.length < turns →
    Datum.AllItems (Datum.Storable setters) items → Receptive engine ctx cells setters →
    place ∉ cells → ctx.Growing place obj values → ctx.MeansItems cells values done →
    values.length + items.length ≤ 2 ^ 31 →
    ctx.Room (Datum.itemsReadBytes items + Context.credit obj + bytes)
      (Datum.itemsReadNames items + names) →
    ∃ after obj' values', parseElements (parseValue engine fuel) (.ptr place) turns ctx input =
        some (some (rest, after)) ∧ Context.Edits place ctx after ∧ after.Room bytes names ∧
      after.Growing place obj' values' ∧ after.MeansItems cells values' (done ++ items)
  | [], _, _, _, _, _, _, _, _, _, _, _, _, elements, _, _, _, _, _, _, _, _, _ => by
      cases elements
  | item :: items, fuel, turns, ctx, cells, input, rest, place, obj, values, done, bytes, names,
      elements, enough, turnsLeft, storable, receptive, elsewhere, growing, means, isShort,
      room => by
      obtain ⟨start, left, before, value, behind⟩ := elements.uncons
      rw [List.length_cons] at isShort
      have startLength := before.length_le
      have ends : EndsNumber left := by
        rcases behind with ⟨-, close⟩ | ⟨next, comma, -⟩
        · exact close.endsNumber (follows_byte (.inr (.inl rfl)))
        · exact comma.endsNumber (follows_byte (.inl rfl))
      have roomItem : ctx.Room (item.readBytes + (39 + Context.credit obj +
          (Datum.itemsReadBytes items + bytes)))
          (item.readNames + (Datum.itemsReadNames items + names)) :=
        room.mono (by rw [Datum.itemsReadBytes]; omega) (by rw [Datum.itemsReadNames]; omega)
      obtain ⟨val, middle, isRead, adds, roomMiddle, isItem⟩ := parseValue_reads item value ends
        (startLength.trans_lt enough) storable.1 receptive roomItem
      have shorter := length_lt_of_read (startLength.trans_lt enough) isRead
      have receptiveMiddle := receptive.adds adds
      obtain ⟨count, obj', after, isPushed, edits, growingAfter, -, roomAfter⟩ :=
        Context.jsArrayPush_of_room receptiveMiddle.wellFormed
          (growing.mono receptive.wellFormed adds.changes) (by omega) val roomMiddle
      have elsewhere' : ∀ address ∈ cells, some place ≠ some address := by
        rintro address isCell ⟨⟩
        exact elsewhere isCell
      have meansAfter : after.MeansItems cells (values ++ [val]) (done ++ [item]) :=
        ((means.mono receptive.wellFormed adds.changes nowhere subset_rfl).append isItem).mono
          receptiveMiddle.wellFormed edits.changes elsewhere' subset_rfl
      have editsAfter := edits.after adds
      obtain ⟨turns, rfl⟩ : ∃ fewer, turns = fewer + 1 := ⟨turns - 1, by omega⟩
      rw [parseElements_succ, parseValue_skip engine fuel ctx before.skipWs_eq, isRead]
      change ∃ after obj' values', afterElement (parseValue engine fuel) (.ptr place) turns
        (val, left, middle) = some (some (rest, after)) ∧ _
      rcases behind with ⟨rfl, close⟩ | ⟨next, comma, others⟩
      · exact ⟨after, obj', _, afterElement_blank_close _ _ isPushed close, editsAfter,
          roomAfter.mono (by rw [Datum.itemsReadBytes]; omega)
            (by rw [Datum.itemsReadNames]; omega), growingAfter, meansAfter⟩
      · have nextLength := comma.length_le
        rw [List.length_cons] at nextLength
        have skipLength := length_skipWs_le next
        obtain ⟨final, grown, values', isLoop, editsFinal, roomFinal, isGrown, isArray⟩ :=
          parseElements_reads items others.skip (by omega : (skipWs next).length < fuel)
            (by omega : (skipWs next).length < turns) storable.2
            (receptiveMiddle.edits edits elsewhere) elsewhere growingAfter meansAfter
            (by rw [List.length_append, List.length_singleton]; omega)
            (show after.Room (Datum.itemsReadBytes items + Context.credit obj' + bytes) _ from
              roomAfter.mono (by omega) le_rfl)
        refine ⟨final, grown, values', ?_, ⟨editsAfter.changes.trans editsFinal.changes,
          editsFinal.proto.trans editsAfter.proto⟩, roomFinal, isGrown, ?_⟩
        · rw [afterElement_blank_comma _ _ isPushed comma, isLoop]
        · rw [List.append_assoc] at isArray
          exact isArray

/-- The loop over the members reads the remaining members. -/
theorem parseMembers_reads {engine : Engine} {setters : Set Bytes} :
    (members : List (List Char × Datum)) →
    ∀ {fuel turns : ℕ} {ctx : Context} {cells : Set ℕ} {input rest : Bytes} {place : ℕ}
      {obj : HeapObject} {map : OrderedMap Bytes JSValue} {done : List (List Char × Datum)}
      {bytes names : ℕ},
    IsMembers input members rest → input.length < fuel → input.length < turns →
    Datum.AllMembers (Datum.Storable setters) members →
    Datum.Storable setters (.object (done ++ members)) → Receptive engine ctx cells setters →
    place ∉ cells → ctx.Filling place obj map →
    ctx.Lacks cells setters (protoSearchLimit - 1) obj.proto →
    (∀ name ∈ map.keys, ∃ member ∈ done, encode member.1 = name) →
    ctx.MeansMembers cells map done →
    ctx.Room (Datum.membersReadBytes members + bytes) (Datum.membersReadNames members + names) →
    ∃ after obj' map', parseMembers engine (parseValue engine fuel) (.ptr place) turns ctx input =
        some (some (rest, after)) ∧ Context.Edits place ctx after ∧ after.Room bytes names ∧
      after.Filling place obj' map' ∧
      (∀ name ∈ map'.keys, ∃ member ∈ done ++ members, encode member.1 = name) ∧
      after.MeansMembers cells map' (done ++ members)
  | [], _, _, _, _, _, _, _, _, _, _, _, _, isMembers, _, _, _, _, _, _, _, _, _, _, _ => by
      cases isMembers
  | (key, item) :: members, fuel, turns, ctx, cells, input, rest, place, obj, map, done, bytes,
      names, isMembers, enough, turnsLeft, storable, isStorable, receptive, elsewhere, filling,
      lacks, known, means, room => by
      obtain ⟨name, colon, value, start, left, beforeName, chars, beforeColon, before, isItem,
        behind⟩ := isMembers.uncons
      have ends : EndsNumber left := by
        rcases behind with ⟨-, close⟩ | ⟨next, comma, -⟩
        · exact close.endsNumber (follows_byte (.inr (.inr rfl)))
        · exact comma.endsNumber (follows_byte (.inl rfl))
      have nameLength := beforeName.length_le
      have colonLength := parseStringLoop_shorter name chars.read
      have valueLength := beforeColon.length_le
      have startLength := before.length_le
      rw [List.length_cons] at nameLength valueLength
      have roomItem : ctx.Room (item.readBytes + (2 * (encode key).length + 70 +
          (Datum.membersReadBytes members + bytes)))
          (item.readNames + (2 + (Datum.membersReadNames members + names))) :=
        room.mono (by rw [Datum.membersReadBytes]; omega) (by rw [Datum.membersReadNames]; omega)
      obtain ⟨val, middle, isRead, adds, roomMiddle, isDatum⟩ := parseValue_reads item isItem ends
        (by omega : start.length < fuel) storable.1 receptive roomItem
      have shorter := length_lt_of_read (by omega : start.length < fuel) isRead
      have receptiveMiddle := receptive.adds adds
      obtain ⟨proper, inherits⟩ :=
        isStorable.1 (key, item) (List.mem_append_right _ List.mem_cons_self)
      have notHeld : isAccessorName (encode key) = false →
          asBytes "__set__" ++ encode key ∉ map.keys := by
        intro notAccessor isKey
        obtain ⟨member, isMember, isName⟩ := known _ isKey
        refine isStorable.2 (done.map fun member => encode member.1) (encode key)
          (members.map fun member => encode member.1) (by rw [List.map_append]; rfl) notAccessor ?_
        rw [← isName]
        exact List.mem_map_of_mem isMember
      obtain ⟨obj', after, isSet, edits, roomAfter, filled, sameProto⟩ :=
        Context.jsSetPropertyStr_of_lacks engine receptiveMiddle.wellFormed
          (filling.mono receptive.wellFormed adds.changes)
          (lacks.mono receptive.wellFormed adds.changes nowhere) notHeld inherits proper
          ((Cache.isSome_fromUtf8_iff _).mpr ⟨key, rfl⟩) val roomMiddle
      have elsewhere' : ∀ address ∈ cells, some place ≠ some address := by
        rintro address isCell ⟨⟩
        exact elsewhere isCell
      have meansAfter : after.MeansMembers cells (map.set (encode key) val)
          (done ++ [(key, item)]) :=
        ((means.mono receptive.wellFormed adds.changes nowhere subset_rfl).append isDatum).mono
          receptiveMiddle.wellFormed edits.changes elsewhere' subset_rfl
      have knownAfter : ∀ name ∈ (map.set (encode key) val).keys,
          ∃ member ∈ done ++ [(key, item)], encode member.1 = name := by
        intro name isKey
        by_cases isSame : name = encode key
        · exact ⟨(key, item), List.mem_append_right _ List.mem_cons_self, isSame.symm⟩
        · have isOld : name ∈ map.keys := by
            by_contra isNew
            refine (OrderedMap.get_eq_none_iff _ _).mp ?_ isKey
            rw [OrderedMap.get_set, if_neg isSame]
            exact (OrderedMap.get_eq_none_iff map name).mpr isNew
          obtain ⟨member, isMember, isName⟩ := known name isOld
          exact ⟨member, List.mem_append_left _ isMember, isName⟩
      have editsAfter := edits.after adds
      obtain ⟨turns, rfl⟩ : ∃ fewer, turns = fewer + 1 := ⟨turns - 1, by omega⟩
      rw [parseMembers_name _ turns engine _ ctx beforeName chars beforeColon,
        parseValue_skip engine fuel ctx before.skipWs_eq, isRead]
      change ∃ after obj' map', afterMember engine (parseValue engine fuel) (.ptr place)
        (encode key) turns (val, left, middle) = some (some (rest, after)) ∧ _
      rcases behind with ⟨rfl, close⟩ | ⟨next, comma, others⟩
      · exact ⟨after, obj', _, afterMember_blank_close _ _ isSet isDatum.ne_exception close,
          editsAfter, roomAfter.mono (by rw [Datum.membersReadBytes]; omega)
            (by rw [Datum.membersReadNames]; omega), filled, knownAfter, meansAfter⟩
      · have nextLength := comma.length_le
        rw [List.length_cons] at nextLength
        have again : done ++ [(key, item)] ++ members = done ++ (key, item) :: members := by
          rw [List.append_assoc]
          rfl
        have lacksAfter : after.Lacks cells setters (protoSearchLimit - 1) obj'.proto := by
          rw [sameProto]
          exact (lacks.mono receptive.wellFormed adds.changes nowhere).mono
            receptiveMiddle.wellFormed edits.changes elsewhere'
        obtain ⟨final, last, map', isLoop, editsFinal, roomFinal, isFilled, isKnown, isObject⟩ :=
          parseMembers_reads members others (by omega : next.length < fuel)
            (by omega : next.length < turns) storable.2 (by rw [again]; exact isStorable)
            (receptiveMiddle.edits edits elsewhere) elsewhere filled lacksAfter knownAfter
            meansAfter roomAfter
        rw [again] at isKnown isObject
        refine ⟨final, last, map', ?_, ⟨editsAfter.changes.trans editsFinal.changes,
          editsFinal.proto.trans editsAfter.proto⟩, roomFinal, isFilled, isKnown, isObject⟩
        rw [afterMember_blank_comma _ _ isSet isDatum.ne_exception comma, isLoop]

end

/-! ## Whole texts -/

/-- The text is decided with as much fuel as it is long, it is accepted if and only if it is
a JSON text, and the value is the one that it denotes. -/
def AcceptsExactly (engine : Engine) (ctx : Context) (src : Bytes) : Prop :=
  ∀ fuel, src.length < fuel → ∃ outcome, parseJson engine fuel ctx src = some outcome ∧
    (outcome.isSome = true ↔ ∃ datum, IsText src datum) ∧
    ∀ datum, IsText src datum → ∀ val after, outcome = some (val, after) →
      after.Means Set.univ val datum

/-- A JSON text is accepted where its datum is storable. -/
theorem parseJson_reads {engine : Engine} {ctx : Context} {src : Bytes} {datum : Datum}
    {setters : Set Bytes} {fuel : ℕ} (text : IsText src datum) (enough : src.length < fuel)
    (storable : datum.All (Datum.Storable setters))
    (receptive : Receptive engine ctx Set.univ setters)
    (room : ctx.Room datum.readBytes datum.readNames) :
    ∃ val after, parseJson engine fuel ctx src = some (some (val, after)) ∧
      after.Means Set.univ val datum := by
  obtain ⟨start, left, before, value, behind⟩ := text
  have ends : EndsNumber left := behind.endsNumber (by rintro byte ⟨⟩)
  obtain ⟨val, after, isRead, -, -, means⟩ := parseValue_reads datum value ends
    (before.length_le.trans_lt enough) storable receptive
    (show ctx.Room (datum.readBytes + 0) (datum.readNames + 0) from room)
  refine ⟨val, after, ?_, means⟩
  rw [parseJson, parseValue_skip engine fuel ctx before.skipWs_eq, isRead]
  change some (if (skipWs left).isEmpty then some (val, after) else none) = _
  rw [behind.skipWs_eq]
  rfl

/-- `parse_json` accepts exactly the JSON texts and returns what they denote, where no name is
that of another property and no member is set behind a member that marks its setter. -/
theorem acceptsExactly_of_storable {engine : Engine} {ctx : Context} {src : Bytes}
    {setters : Set Bytes} (isText : IsUtf8 src) (receptive : Receptive engine ctx Set.univ setters)
    (room : ∀ datum, IsText src datum → ctx.Room datum.readBytes datum.readNames)
    (storable : ∀ datum, IsText src datum → datum.All (Datum.Storable setters)) :
    AcceptsExactly engine ctx src := by
  intro fuel enough
  obtain ⟨outcome, isOutcome⟩ := Option.isSome_iff_exists.mp (parseJson_decided engine ctx enough)
  have accepted (datum : Datum) (text : IsText src datum) :
      ∃ val after, outcome = some (val, after) ∧ after.Means Set.univ val datum := by
    obtain ⟨val, after, isRead, means⟩ :=
      parseJson_reads text enough (storable datum text) receptive (room datum text)
    exact ⟨val, after, Option.some.inj (isOutcome.symm.trans isRead), means⟩
  refine ⟨outcome, isOutcome, ⟨fun isSome => ?_, fun ⟨datum, text⟩ => ?_⟩, ?_⟩
  · obtain ⟨⟨val, after⟩, rfl⟩ := Option.isSome_iff_exists.mp isSome
    exact parseJson_sound engine fuel isText isOutcome
  · obtain ⟨val, after, rfl, -⟩ := accepted datum text
    rfl
  · intro datum text val after isRead
    obtain ⟨val', after', isRead', means⟩ := accepted datum text
    cases isRead.symm.trans isRead'
    exact means

/-- The names of an object that a value denotes are stored under themselves. -/
theorem proper_of_means {ctx : Context} {cells : Set ℕ} {address : ℕ} {obj : HeapObject}
    {map : OrderedMap Bytes JSValue} (holds : ctx.Holds address obj map)
    {members : List (List Char × Datum)} (means : ctx.MeansMembers cells map members)
    {member : List Char × Datum} (isMember : member ∈ members) :
    Context.ProperName (encode member.1) := by
  induction members generalizing member with
  | nil => cases isMember
  | cons first members ih =>
      obtain ⟨key, item⟩ := first
      have later {other : List Char × Datum} (isOther : other ∈ members) :
          Context.ProperName (encode other.1) := ih means.2 isOther
      rcases List.mem_cons.mp isMember with rfl | isOther
      · rcases means.1 with isReplaced | ⟨val, isValue, -⟩
        · obtain ⟨⟨name, other⟩, isOther, isName⟩ := List.mem_map.mp isReplaced
          obtain rfl : name = key := isName
          exact @later (name, other) isOther
        · have isKey : encode key ∈ map.keys := by
            by_contra isNew
            rw [(OrderedMap.get_eq_none_iff map _).mpr isNew] at isValue
            cases isValue
          obtain ⟨key', isName⟩ := holds.exists_names isKey
          exact isName.proper
      · exact later isOther

/-! ### Two texts -/

/-- A number of one digit. -/
theorem isNumber_digit {digit : UInt8} (isDigit : isAsciiDigit digit = true) :
    IsNumber [digit] false (digit.toNat - 48 : ℕ) := by
  have areDigits : [digit].all isAsciiDigit = true := by
    rw [List.all_cons, isDigit]
    rfl
  have isInteger : IsInteger [digit] := by
    by_cases isZero : digit = 48
    · exact .inl (by rw [isZero])
    · exact .inr ⟨List.cons_ne_nil _ _, fun same => isZero (Option.some.inj same), areDigits⟩
  refine ⟨⟨[digit], none, none, areDigits, fun _ same => (by cases same),
    fun _ _ same => (by cases same), .inl (List.cons_ne_nil _ _)⟩, rfl, isInteger, ?_, ?_⟩
  · rintro ⟨⟩
  · simp [Decimal.value, Decimal.fractionBytes, Decimal.written, digitsNumber]

/-- A context without objects to inherit from. -/
theorem receptive_new (setters : Set Bytes) :
    Receptive plainEngine (Context.new 4096) Set.univ setters where
  wellFormed := ⟨AtomTable.wellFormed_new, fun _ _ => rfl, fun _ _ => rfl⟩
  fresh := fun _ _ => trivial
  objects := .inr (.inl rfl)
  isSet := by rintro ⟨⟩

/-- `{"a":1,"a":"\u0041"}`. -/
def replacedText : Bytes := asBytes "\x7b\"a\":1,\"a\":\"\\u0041\"\x7d"

@[inherit_doc replacedText]
def replacedDatum : Datum :=
  .object [(['a'], .number false 1), (['a'], .string ['A'])]

theorem isChars_ascii {byte : UInt8} (ascii : byte.toNat < 128) (large : 32 ≤ byte.toNat)
    (notQuote : byte ≠ 34) (notBackslash : byte ≠ 92) {input rest : Bytes} {text : List Char}
    (chars : IsChars input text rest) :
    IsChars (byte :: input) (Char.ofNat byte.toNat :: text) rest :=
  (chars.ascii ascii large notQuote notBackslash).1

theorem isText_replaced : IsText replacedText replacedDatum := by
  have name (rest : Bytes) : IsChars (97 :: 34 :: rest) ['a'] rest :=
    isChars_ascii (by decide) (by decide) (by decide) (by decide) (.close rest)
  have isCode : IsCode [48, 48, 52, 49] 65 :=
    ⟨48, 48, 52, 49, 0, 0, 4, 1, rfl, by decide, by decide, by decide, by decide, rfl⟩
  have letter : IsValue (34 :: 92 :: 117 :: 48 :: 48 :: 52 :: 49 :: 34 :: 125 :: [])
      (.string ['A']) [125] := .string (.unicode isCode (.inl (by decide)) (.close _))
  have one (rest : Bytes) : IsValue (49 :: rest) (.number false 1) rest := by
    have number := @isNumber_digit 49 rfl
    rw [show ((49 : UInt8).toNat - 48 : ℕ) = 1 from rfl, Nat.cast_one] at number
    exact .number number rest
  exact ⟨_, _, .none _, .object (.more (.none _) (name _) (.none _) (.none _) (one _) (.none _)
    (.last (.none _) (name _) (.none _) (.none _) letter (.none _))), .none _⟩

/-- The last of two members with one name counts, and its escape is decoded. -/
theorem acceptsExactly_replaced : AcceptsExactly plainEngine (Context.new 4096) replacedText := by
  refine acceptsExactly_of_storable ((Cache.isSome_fromUtf8_iff _).mp (by decide))
    (receptive_new Set.univ) (fun datum text => ?_) fun datum text => ?_
  · rw [text.unique isText_replaced]
    exact ⟨by decide, by decide⟩
  · rw [text.unique isText_replaced]
    have proper : Context.ProperName (encode ['a']) := by
      change (fromUtf8 (encode ['a'])).isSome = true
      decide
    refine ⟨⟨fun member isMember => ⟨?_, fun _ => trivial⟩, ?_⟩, trivial, trivial, trivial⟩
    · rcases List.mem_cons.mp isMember with rfl | isLast
      · exact proper
      · rw [List.mem_singleton.mp isLast]
        exact proper
    · intro before name after isNames _ isHeld
      have short : ∀ other ∈ [encode ['a'], encode ['a']], other.length = 1 := by decide
      have isLength := short (asBytes "__set__" ++ name) (by
        rw [show [encode ['a'], encode ['a']] = before ++ name :: after from isNames]
        exact List.mem_append_left _ isHeld)
      rw [Context.length_accessor rfl] at isLength
      omega

/-- `{"01":5}`. -/
def aliasedText : Bytes := asBytes "\x7b\"01\":5\x7d"

@[inherit_doc aliasedText]
def aliasedDatum : Datum := .object [(['0', '1'], .number false 5)]

theorem isText_aliased : IsText aliasedText aliasedDatum := by
  have name : IsChars (48 :: 49 :: 34 :: 58 :: 53 :: 125 :: []) ['0', '1'] (58 :: 53 :: 125 :: []) :=
    isChars_ascii (by decide) (by decide) (by decide) (by decide)
      (isChars_ascii (by decide) (by decide) (by decide) (by decide) (.close _))
  have five : IsValue (53 :: 125 :: []) (.number false 5) [125] := by
    have number := @isNumber_digit 53 rfl
    rw [show ((53 : UInt8).toNat - 48 : ℕ) = 5 from rfl] at number
    exact .number number _
  exact ⟨_, _, .none _, .object (.last (.none _) name (.none _) (.none _) five (.none _)), .none _⟩

/-- A name that is read as an index is not stored under itself. -/
theorem not_always_acceptsExactly :
    ¬∀ (engine : Engine) (ctx : Context) (src : Bytes), IsUtf8 src →
      Receptive engine ctx Set.univ Set.univ →
      (∀ datum, IsText src datum → ctx.Room datum.readBytes datum.readNames) →
      AcceptsExactly engine ctx src := by
  intro always
  have accepts := always plainEngine (Context.new 4096) aliasedText
    ((Cache.isSome_fromUtf8_iff _).mp (by decide)) (receptive_new _) (fun datum text => by
      rw [text.unique isText_aliased]
      exact ⟨by decide, by decide⟩) _ (Nat.lt_succ_self _)
  obtain ⟨outcome, -, isAccepted, isDenoted⟩ := accepts
  obtain ⟨⟨val, after⟩, rfl⟩ :=
    Option.isSome_iff_exists.mp (isAccepted.mpr ⟨aliasedDatum, isText_aliased⟩)
  obtain ⟨address, obj, map, -, -, holds, -, -, means⟩ :=
    isDenoted aliasedDatum isText_aliased val after rfl
  have proper := proper_of_means holds means List.mem_cons_self
  have improper : ¬Context.ProperName [48, 49] := by
    change ¬[48, 49] = natBytes 1
    decide
  exact improper proper

end Json
end Script
end MuonJs
