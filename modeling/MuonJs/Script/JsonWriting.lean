import MuonJs.Lib.Descent
import MuonJs.Script.JsonHeap

/-!
# Writing JSON

The writer gives a value on the heap the text of its tree, as long as no object
in it is marked.  It changes nothing on the heap but for the names it interns.
-/

namespace MuonJs
namespace Script

open Cache (Bytes F64 asBytes fromUtf8)
open Descent (Settles)

namespace Json

/-! ## Trees -/

mutual

/-- Every node of a tree satisfies the predicate. -/
def All (holds : Json → Prop) : Json → Prop
  | .array items => holds (.array items) ∧ AllItems holds items
  | .object entries => holds (.object entries) ∧ AllEntries holds entries
  | leaf => holds leaf

/-- Every node of the elements satisfies the predicate. -/
def AllItems (holds : Json → Prop) : List Json → Prop
  | [] => True
  | item :: items => All holds item ∧ AllItems holds items

/-- Every node of the entries satisfies the predicate. -/
def AllEntries (holds : Json → Prop) : List (Bytes × Json) → Prop
  | [] => True
  | (_, value) :: entries => All holds value ∧ AllEntries holds entries

end

/-- Names among which none marks a getter of another one or of the mark of a closure, or a setter
of a later one: no accessor is found when the values are written, nor when they are set in this
order. -/
def Accessorless (names : List Bytes) : Prop :=
  asBytes "__get____closure__" ∉ names ∧
    (∀ name ∈ names, isAccessorName name = false → asBytes "__get__" ++ name ∉ names) ∧
    names.Pairwise fun earlier later =>
      isAccessorName later = false → earlier ≠ asBytes "__set__" ++ later

/-- An array with a length in the range of `i32`, or an object whose accessors are not found. -/
def PlainNode : Json → Prop
  | .array items => items.length < 2 ^ 31
  | .object entries => Accessorless (entries.map Prod.fst)
  | _ => True

/-- No accessor of an object of the tree is found. -/
def Plain (tree : Json) : Prop := tree.All PlainNode

/-! ### What is left out -/

/-- The tree is `true`. -/
def isTrue : Json → Bool
  | .bool truth => truth
  | _ => false

/-- The entries mark a closure. -/
def isClosure (entries : List (Bytes × Json)) : Bool :=
  entries.any fun entry => entry.1 = asBytes "__closure__" && entry.2.isTrue

mutual

/-- What is written of a tree: nothing of a closure. -/
def kept : Json → Option Json
  | .array items => some (.array (keptItems items))
  | .object entries => if isClosure entries then none else some (.object (keptEntries entries))
  | leaf => some leaf

/-- What is written of elements: `null` for a closure. -/
def keptItems : List Json → List Json
  | [] => []
  | item :: items => (kept item).getD .null :: keptItems items

/-- What is written of entries: no closures. -/
def keptEntries : List (Bytes × Json) → List (Bytes × Json)
  | [] => []
  | (key, value) :: entries =>
      match kept value with
      | none => keptEntries entries
      | some value => (key, value) :: keptEntries entries

end

/-- The text of a tree, where it has one. -/
def keptText (tree : Json) (inArray : Bool) : Option Bytes :=
  (kept tree).elim (absentText inArray) fun tree => some tree.text

/-- An element without text is written as `null`. -/
theorem keptText_true (tree : Json) : keptText tree true = some ((kept tree).getD .null).text := by
  rw [keptText]
  cases kept tree <;> rfl

mutual

/-- Memory that writing a tree takes at most. -/
def writeBytes : Json → ℕ
  | .array items => 83 + itemsWriteBytes items
  | .object entries => 61 + entriesWriteBytes entries
  | _ => 0

@[inherit_doc writeBytes]
def itemsWriteBytes : List Json → ℕ
  | [] => 0
  | item :: items => writeBytes item + itemsWriteBytes items

@[inherit_doc writeBytes]
def entriesWriteBytes : List (Bytes × Json) → ℕ
  | [] => 0
  | (key, value) :: entries => 2 * key.length + 39 + writeBytes value + entriesWriteBytes entries

end

mutual

/-- Atoms that writing a tree takes at most. -/
def writeNames : Json → ℕ
  | .array items => 3 + itemsWriteNames items
  | .object entries => 2 + entriesWriteNames entries
  | _ => 0

@[inherit_doc writeNames]
def itemsWriteNames : List Json → ℕ
  | [] => 0
  | item :: items => writeNames item + itemsWriteNames items

@[inherit_doc writeNames]
def entriesWriteNames : List (Bytes × Json) → ℕ
  | [] => 0
  | (_, value) :: entries => 2 + writeNames value + entriesWriteNames entries

end

end Json

namespace Context

/-! ## Values that stand for trees -/

mutual

/-- The value on the heap stands for the tree, which lies in the cells. -/
def Represents (ctx : Context) (cells : Set ℕ) (val : JSValue) : Json → Prop
  | .null => val = .null
  | .bool truth => val = .bool truth
  | .int n => val = .int n
  | .string bytes =>
      ∃ address, val = .ptr address ∧ address ∈ cells ∧
        ctx.heap address = some (.string bytes) ∧ (fromUtf8 bytes).isSome
  | .array items =>
      ∃ address obj values, val = .ptr address ∧ address ∈ cells ∧
        ctx.HoldsItems address obj values ∧ ctx.Unmarked cells (protoSearchLimit - 1) obj.proto ∧
        RepresentsItems ctx cells values items
  | .object entries =>
      ∃ address obj map, val = .ptr address ∧ address ∈ cells ∧ ctx.Holds address obj map ∧
        obj.classId = objectClass ∧ ctx.Unmarked cells (protoSearchLimit - 1) obj.proto ∧
        RepresentsEntries ctx cells map.entries entries

/-- The elements of an array stand for trees. -/
def RepresentsItems (ctx : Context) (cells : Set ℕ) (values : List JSValue) : List Json → Prop
  | [] => values = []
  | item :: items =>
      ∃ val rest, values = val :: rest ∧ Represents ctx cells val item ∧
        RepresentsItems ctx cells rest items

/-- The entries of an object stand for trees. -/
def RepresentsEntries (ctx : Context) (cells : Set ℕ) (values : List (Bytes × JSValue)) :
    List (Bytes × Json) → Prop
  | [] => values = []
  | (key, item) :: entries =>
      ∃ val rest, values = (key, val) :: rest ∧ Represents ctx cells val item ∧
        RepresentsEntries ctx cells rest entries

end

section Mono

variable {before after : Context} {place : Option ℕ} {cells cells' : Set ℕ}

mutual

/-- A value keeps standing for a tree when its cells are not changed. -/
theorem Represents.mono (wellFormed : before.WellFormed) (changes : Changes place before after)
    (elsewhere : ∀ address ∈ cells, place ≠ some address) (more : cells ⊆ cells')
    {val : JSValue} : {tree : Json} → before.Represents cells val tree →
      after.Represents cells' val tree
  | .null, represents | .bool _, represents | .int _, represents => represents
  | .string _, ⟨address, isPtr, isCell, stored, isUtf8⟩ =>
      ⟨address, isPtr, more isCell,
        (changes.cells address (wellFormed.inUse stored) (elsewhere address isCell)).trans stored,
        isUtf8⟩
  | .array _, ⟨address, obj, values, isPtr, isCell, holds, unmarked, represents⟩ =>
      ⟨address, obj, values, isPtr, more isCell,
        holds.mono wellFormed changes (elsewhere address isCell),
        (unmarked.mono wellFormed changes elsewhere).inUse (changes.wellFormed wellFormed)
          fun _ inCells _ => more inCells,
        RepresentsItems.mono wellFormed changes elsewhere more represents⟩
  | .object _, ⟨address, obj, map, isPtr, isCell, holds, isClass, unmarked, represents⟩ =>
      ⟨address, obj, map, isPtr, more isCell,
        holds.mono wellFormed changes (elsewhere address isCell), isClass,
        (unmarked.mono wellFormed changes elsewhere).inUse (changes.wellFormed wellFormed)
          fun _ inCells _ => more inCells,
        RepresentsEntries.mono wellFormed changes elsewhere more represents⟩

theorem RepresentsItems.mono (wellFormed : before.WellFormed)
    (changes : Changes place before after) (elsewhere : ∀ address ∈ cells, place ≠ some address)
    (more : cells ⊆ cells') {values : List JSValue} :
    {items : List Json} → before.RepresentsItems cells values items →
      after.RepresentsItems cells' values items
  | [], represents => represents
  | _ :: _, ⟨val, rest, isCons, represents, others⟩ =>
      ⟨val, rest, isCons, Represents.mono wellFormed changes elsewhere more represents,
        RepresentsItems.mono wellFormed changes elsewhere more others⟩

theorem RepresentsEntries.mono (wellFormed : before.WellFormed)
    (changes : Changes place before after) (elsewhere : ∀ address ∈ cells, place ≠ some address)
    (more : cells ⊆ cells') {values : List (Bytes × JSValue)} :
    {entries : List (Bytes × Json)} → before.RepresentsEntries cells values entries →
      after.RepresentsEntries cells' values entries
  | [], represents => represents
  | (_, _) :: _, ⟨val, rest, isCons, represents, others⟩ =>
      ⟨val, rest, isCons, Represents.mono wellFormed changes elsewhere more represents,
        RepresentsEntries.mono wellFormed changes elsewhere more others⟩

end

end Mono

section Trees

variable {ctx : Context} {cells : Set ℕ}

theorem RepresentsItems.length {values : List JSValue} {items : List Json}
    (represents : ctx.RepresentsItems cells values items) : values.length = items.length := by
  induction items generalizing values with
  | nil =>
      rw [show values = [] from represents]
      rfl
  | cons item items ih =>
      obtain ⟨val, rest, rfl, -, others⟩ := represents
      rw [List.length_cons, List.length_cons, ih others]

theorem RepresentsItems.append {values : List JSValue} {done : List Json} {val : JSValue} {item : Json}
    (represents : ctx.RepresentsItems cells values done) (isTree : ctx.Represents cells val item) :
    ctx.RepresentsItems cells (values ++ [val]) (done ++ [item]) := by
  induction done generalizing values with
  | nil =>
      rw [show values = [] from represents]
      exact ⟨val, [], rfl, isTree, rfl⟩
  | cons first done ih =>
      obtain ⟨head, rest, rfl, isHead, others⟩ := represents
      exact ⟨head, rest ++ [val], rfl, isHead, ih others⟩

theorem RepresentsEntries.append {values : List (Bytes × JSValue)}
    {done : List (Bytes × Json)} {key : Bytes} {val : JSValue} {item : Json}
    (represents : ctx.RepresentsEntries cells values done)
    (isTree : ctx.Represents cells val item) :
    ctx.RepresentsEntries cells (values ++ [(key, val)]) (done ++ [(key, item)]) := by
  induction done generalizing values with
  | nil =>
      rw [show values = [] from represents]
      exact ⟨val, [], rfl, isTree, rfl⟩
  | cons first done ih =>
      obtain ⟨head, rest, rfl, isHead, others⟩ := represents
      exact ⟨head, rest ++ [(key, val)], rfl, isHead, ih others⟩

theorem RepresentsEntries.keys {values : List (Bytes × JSValue)}
    {entries : List (Bytes × Json)} (represents : ctx.RepresentsEntries cells values entries) :
    values.map Prod.fst = entries.map Prod.fst := by
  induction entries generalizing values with
  | nil =>
      rw [show values = [] from represents]
      rfl
  | cons entry entries ih =>
      obtain ⟨val, rest, rfl, -, others⟩ := represents
      rw [List.map_cons, List.map_cons, ih others]

/-- The tree of an entry. -/
theorem RepresentsEntries.exists_entry {values : List (Bytes × JSValue)}
    {entries : List (Bytes × Json)} (represents : ctx.RepresentsEntries cells values entries)
    {value : Bytes × JSValue} (isEntry : value ∈ values) :
    ∃ entry ∈ entries, entry.1 = value.1 ∧ ctx.Represents cells value.2 entry.2 := by
  induction entries generalizing values with
  | nil =>
      rw [show values = [] from represents] at isEntry
      cases isEntry
  | cons entry entries ih =>
      obtain ⟨val, rest, rfl, isTree, others⟩ := represents
      rcases List.mem_cons.mp isEntry with rfl | isOther
      · exact ⟨entry, List.mem_cons_self, rfl, isTree⟩
      · obtain ⟨found, isFound, isKey, isTree⟩ := ih others isOther
        exact ⟨found, List.mem_cons_of_mem _ isFound, isKey, isTree⟩

/-- The value of an entry of the tree. -/
theorem RepresentsEntries.exists_value {values : List (Bytes × JSValue)}
    {entries : List (Bytes × Json)} (represents : ctx.RepresentsEntries cells values entries)
    {entry : Bytes × Json} (isEntry : entry ∈ entries) :
    ∃ value ∈ values, value.1 = entry.1 ∧ ctx.Represents cells value.2 entry.2 := by
  induction entries generalizing values with
  | nil => cases isEntry
  | cons first entries ih =>
      obtain ⟨val, rest, rfl, isTree, others⟩ := represents
      rcases List.mem_cons.mp isEntry with rfl | isOther
      · exact ⟨_, List.mem_cons_self, rfl, isTree⟩
      · obtain ⟨found, isFound, isKey, isTree⟩ := ih others isOther
        exact ⟨found, List.mem_cons_of_mem _ isFound, isKey, isTree⟩

theorem Represents.ne_exception {val : JSValue} {tree : Json}
    (represents : ctx.Represents cells val tree) : val ≠ .exception := by
  rintro rfl
  cases tree with
  | bool truth => cases represents
  | null => cases represents
  | int n => cases represents
  | string bytes =>
      obtain ⟨address, isPtr, -⟩ := represents
      cases isPtr
  | array items =>
      obtain ⟨address, obj, values, isPtr, -⟩ := represents
      cases isPtr
  | object entries =>
      obtain ⟨address, obj, map, isPtr, -⟩ := represents
      cases isPtr

/-- `true` stands for the tree `true`. -/
theorem Represents.isTrue_iff {val : JSValue} {tree : Json}
    (represents : ctx.Represents cells val tree) : tree.isTrue = true ↔ val = .bool true := by
  cases tree with
  | bool truth =>
      cases show val = .bool truth from represents
      rw [Json.isTrue, JSValue.bool.injEq]
  | null =>
      cases show val = .null from represents
      exact ⟨nofun, nofun⟩
  | int n =>
      cases show val = .int n from represents
      exact ⟨nofun, nofun⟩
  | string bytes =>
      obtain ⟨address, rfl, -⟩ := represents
      exact ⟨nofun, nofun⟩
  | array items =>
      obtain ⟨address, obj, values, rfl, -⟩ := represents
      exact ⟨nofun, nofun⟩
  | object entries =>
      obtain ⟨address, obj, map, rfl, -⟩ := represents
      exact ⟨nofun, nofun⟩

/-- An object is marked as a closure when its entries are. -/
theorem RepresentsEntries.isClosure_iff {map : OrderedMap Bytes JSValue}
    {entries : List (Bytes × Json)} (represents : ctx.RepresentsEntries cells map.entries entries) :
    Json.isClosure entries = true ↔ map.get (asBytes "__closure__") = some (.bool true) := by
  constructor
  · intro isClosure
    obtain ⟨entry, isEntry, isMark⟩ := List.any_eq_true.mp isClosure
    rw [Bool.and_eq_true, decide_eq_true_eq] at isMark
    obtain ⟨value, isValue, isKey, isTree⟩ := represents.exists_value isEntry
    rw [← isMark.1, ← isKey, map.get_of_mem isValue, isTree.isTrue_iff.mp isMark.2]
  · intro isMarked
    obtain ⟨value, isFound, isTrue⟩ := Option.map_eq_some_iff.mp isMarked
    obtain ⟨entry, isEntry, same, isTree⟩ :=
      represents.exists_entry (List.mem_of_find?_eq_some isFound)
    have isKey : value.1 = asBytes "__closure__" := by
      simpa using List.find?_some isFound
    refine List.any_eq_true.mpr ⟨entry, isEntry, ?_⟩
    rw [Bool.and_eq_true, decide_eq_true_eq]
    exact ⟨same.trans isKey, isTree.isTrue_iff.mpr isTrue⟩

end Trees

end Context

namespace Json

/-! ## Writing a value -/

/-- With enough fuel the run gives the value, and leaves room. -/
def Ends {α : Type} (run : ℕ → Option (α × Context)) (ctx : Context) (value : α)
    (bytes names : ℕ) : Prop :=
  ∃ after, Settles run (some (value, after)) ∧ Context.Adds ctx after ∧ after.Room bytes names

section Writing

variable (engine : Engine)

theorem stringify_string {ctx : Context} {val : JSValue} {text : Bytes} (fuel : ℕ)
    (isText : ctx.stringBytes val = some text) (inArray : Bool) :
    jsonStringifyInner engine (fuel + 1) ctx val inArray =
      some (some (stringText ((fromUtf8 text).getD "")), ctx) := by
  unfold jsonStringifyInner
  rw [isText]

theorem stringify_int (fuel : ℕ) (ctx : Context) (n : Int32) (inArray : Bool) :
    jsonStringifyInner engine (fuel + 1) ctx (.int n) inArray =
      some (some (i32Bytes n), ctx) := by
  unfold jsonStringifyInner
  dsimp only [Context.stringBytes, Context.numberOf]
  rw [isFinite_i32AsF64, if_pos rfl, numberText_i32AsF64]

/-- The step on an object that is no function. -/
theorem stringify_object {ctx after : Context} {address : ℕ} {obj : HeapObject} (fuel : ℕ)
    (isObject : ctx.objectPtr (.ptr address) = some (address, obj))
    (notFunction : ctx.jsIsFunction engine (.ptr address) = (false, after))
    (isObjectAfter : after.objectPtr (.ptr address) = some (address, obj)) (inArray : Bool) :
    jsonStringifyInner engine (fuel + 1) ctx (.ptr address) inArray =
      if obj.classId = arrayClass then
        let (len, ctx) := after.getPropertyStr (.ptr address) (asBytes "length")
        let count := match len with
          | some (.int len) => len.toInt.toNat
          | _ => 0
        (elementsText (jsonStringifyInner engine fuel) (.ptr address) 0 count ctx).map
          fun (text, ctx) => (some (91 :: text ++ [93]), ctx)
      else
        (membersText engine (jsonStringifyInner engine fuel) (.ptr address) true
          ((after.objectKeys (.ptr address)).getD []) after).map
          fun (text, ctx) => (some (123 :: text ++ [125]), ctx) := by
  have notText := Context.stringBytes_of_object isObject
  have notNumber : ctx.numberOf (.ptr address) = none := by
    obtain ⟨-, stored⟩ := Context.objectPtr_eq_some isObject
    rw [Context.numberOf, Context.floatValue, stored]
    nofun
  unfold jsonStringifyInner
  rw [notText, notNumber]
  dsimp only
  rw [notFunction]
  dsimp only
  rw [if_neg Bool.false_ne_true, isObjectAfter, Option.any_some]
  by_cases isClass : obj.classId = arrayClass
  · exact (if_pos (decide_eq_true isClass)).trans (if_pos isClass).symm
  · rw [if_neg isClass, if_neg (by simpa using isClass)]

variable {ctx : Context} {cells : Set ℕ} {address : ℕ} {obj : HeapObject} {bytes names : ℕ}

theorem Ends.leaf {α : Type} {run : ℕ → Option (α × Context)} {value : α}
    (always : ∀ fuel, run (fuel + 1) = some (value, ctx)) (room : ctx.Room bytes names) :
    Ends run ctx value bytes names :=
  ⟨ctx, .of_succ (.of_forall always), .refl ctx, room⟩

/-- An array is written as its elements are. -/
theorem stringify_array {values : List JSValue} {text : Bytes} (wellFormed : ctx.WellFormed)
    (holds : ctx.HoldsItems address obj values)
    (unmarked : ctx.Unmarked cells (protoSearchLimit - 1) obj.proto)
    (isShort : values.length < 2 ^ 31) (inArray : Bool) {more : ℕ} {moreNames : ℕ}
    (room : ctx.Room (83 + more) (3 + moreNames))
    (elements : ∀ after, Context.Adds ctx after → after.Room more moreNames →
      Ends (fun fuel => elementsText (jsonStringifyInner engine fuel) (.ptr address) 0
        values.length after) after text bytes names) :
    Ends (fun fuel => jsonStringifyInner engine fuel ctx (.ptr address) inArray) ctx
      (some (91 :: text ++ [93])) bytes names := by
  obtain ⟨middle, notFunction, adds, roomMiddle⟩ := Context.jsIsFunction_of_holdsItems engine
    wellFormed holds unmarked (room.mono (by omega : 61 + (22 + more) ≤ _)
      (by omega : 2 + (1 + moreNames) ≤ _))
  have holdsMiddle := holds.mono wellFormed adds.changes nofun
  obtain ⟨after, isLength, addsLength, roomAfter⟩ := Context.getPropertyStr_length
    (adds.changes.wellFormed wellFormed) holdsMiddle roomMiddle
  have addsAfter := adds.trans addsLength
  obtain ⟨final, settles, addsFinal, roomFinal⟩ := elements after addsAfter roomAfter
  refine ⟨final, .of_succ ?_, addsAfter.trans addsFinal, roomFinal⟩
  have isCount : obj.arrayLen.toInt32.toInt.toNat = values.length := by
    have isLen : obj.arrayLen.toBitVec.toNat = values.length := holds.len
    have isInt : obj.arrayLen.toBitVec.toInt = obj.arrayLen.toBitVec.toNat :=
      BitVec.toInt_eq_toNat_of_lt (by omega)
    rw [Int32.toInt, UInt32.toBitVec_toInt32, isInt, Int.toNat_natCast, isLen]
  refine Settles.congr (settles.map (Option.map fun (text, ctx) =>
    (some (91 :: text ++ [93]), ctx))) fun fuel => ?_
  rw [stringify_object engine fuel holds.isObject notFunction holdsMiddle.isObject,
    if_pos holds.isClass, isLength]
  dsimp only
  rw [isCount]

/-- A closure is left out. -/
theorem stringify_closure {map : OrderedMap Bytes JSValue} (wellFormed : ctx.WellFormed)
    (holds : ctx.Holds address obj map) (isClass : obj.classId = objectClass)
    (noGetter : asBytes "__get____closure__" ∉ map.keys)
    (isClosure : map.get (asBytes "__closure__") = some (.bool true))
    (unmarked : ctx.Unmarked cells (protoSearchLimit - 1) obj.proto) (inArray : Bool)
    (room : ctx.Room (61 + bytes) (2 + names)) :
    Ends (fun fuel => jsonStringifyInner engine fuel ctx (.ptr address) inArray) ctx
      (absentText inArray) bytes names := by
  obtain ⟨after, isRead, adds, roomAfter⟩ := Context.jsGetPropertyStr_of_holds engine wellFormed
    holds unmarked isClosure (fun _ => noGetter) room
  have isFunction : ctx.jsIsFunction engine (.ptr address) = (true, after) := by
    rw [Context.jsIsFunction_of_object engine holds.isObject (by rw [isClass]; decide)
      (by rw [isClass]; decide), isRead, decide_eq_true rfl]
  have notText := Context.stringBytes_of_object holds.isObject
  have notNumber : ctx.numberOf (.ptr address) = none := by
    rw [Context.numberOf, Context.floatValue, holds.stored]
    nofun
  refine ⟨after, .of_succ (.of_forall fun fuel => ?_), adds, roomAfter⟩
  unfold jsonStringifyInner
  rw [notText, notNumber]
  dsimp only
  rw [isFunction]
  dsimp only
  rw [if_pos rfl]

/-- An object is written as its entries are. -/
theorem stringify_members {map : OrderedMap Bytes JSValue} {text : Bytes}
    (wellFormed : ctx.WellFormed) (holds : ctx.Holds address obj map)
    (isClass : obj.classId = objectClass)
    (noGetter : asBytes "__get____closure__" ∉ map.keys)
    (notClosure : map.get (asBytes "__closure__") ≠ some (.bool true))
    (unmarked : ctx.Unmarked cells (protoSearchLimit - 1) obj.proto) (inArray : Bool)
    {more moreNames : ℕ} (room : ctx.Room (61 + more) (2 + moreNames))
    (members : ∀ after, Context.Adds ctx after → after.Room more moreNames →
      Ends (fun fuel => membersText engine (jsonStringifyInner engine fuel) (.ptr address) true
        map.keys after) after text bytes names) :
    Ends (fun fuel => jsonStringifyInner engine fuel ctx (.ptr address) inArray) ctx
      (some (123 :: text ++ [125])) bytes names := by
  obtain ⟨after, notFunction, adds, roomAfter⟩ := Context.jsIsFunction_of_holds engine
    wellFormed holds unmarked isClass noGetter notClosure room
  have holdsAfter := holds.mono wellFormed adds.changes nofun
  obtain ⟨final, settles, addsFinal, roomFinal⟩ := members after adds roomAfter
  refine ⟨final, .of_succ ?_, adds.trans addsFinal, roomFinal⟩
  refine Settles.congr (settles.map (Option.map fun (text, ctx) =>
    (some (123 :: text ++ [125]), ctx))) fun fuel => ?_
  rw [stringify_object engine fuel holds.isObject notFunction holdsAfter.isObject,
    if_neg (by rw [isClass]; decide), holdsAfter.objectKeys_eq,
    holdsAfter.plain]
  rfl

/-- One more element. -/
theorem elementsText_cons {values : List JSValue} {val : JSValue} {text rest : Bytes}
    {index count : ℕ} {more moreNames : ℕ} (holds : ctx.HoldsItems address obj values)
    (isItem : values[index]? = some val) (inRange : index < 2 ^ 32)
    (item : Ends (fun fuel => jsonStringifyInner engine fuel ctx val true) ctx (some text)
      more moreNames)
    (others : ∀ after, Context.Adds ctx after → after.Room more moreNames →
      Ends (fun fuel => elementsText (jsonStringifyInner engine fuel) (.ptr address) (index + 1)
        count after) after rest bytes names) :
    Ends (fun fuel => elementsText (jsonStringifyInner engine fuel) (.ptr address) index
      (count + 1) ctx) ctx (separator (index = 0) ++ text ++ rest) bytes names := by
  obtain ⟨middle, settles, adds, roomMiddle⟩ := item
  obtain ⟨after, settlesOthers, addsOthers, roomAfter⟩ := others middle adds roomMiddle
  refine ⟨after, ?_, adds.trans addsOthers, roomAfter⟩
  have isRead : ctx.jsGetPropertyUint32 (.ptr address) (UInt32.ofNat index) = val := by
    rw [Context.jsGetPropertyUint32, holds.isObject]
    dsimp only
    rw [if_pos holds.isArray, holds.arrayGet isItem inRange]
  refine Settles.congr ((settles.bind (fun fuel first =>
    (elementsText (jsonStringifyInner engine fuel) (.ptr address) (index + 1) count first.2).map
      fun others =>
        (separator (index = 0) ++ first.1.getD (asBytes "null") ++ others.1, others.2))
    (settlesOthers.map (Option.map fun others =>
      (separator (index = 0) ++ (some text).getD (asBytes "null") ++ others.1, others.2)))))
    fun fuel => ?_
  rw [elementsText, isRead]

/-- What `membersText` does after the text of a value. -/
def memberThen (engine : Engine) (address : ℕ) (isFirst : Bool) (key : Bytes)
    (keys : List Bytes) (fuel : ℕ) : Option Bytes × Context → Option (Bytes × Context)
  | (none, ctx) =>
      membersText engine (jsonStringifyInner engine fuel) (.ptr address) isFirst keys ctx
  | (some text, ctx) =>
      (membersText engine (jsonStringifyInner engine fuel) (.ptr address) false keys ctx).map
        fun (rest, ctx) =>
          (separator isFirst ++ 34 :: key ++ asBytes "\":" ++ text ++ rest, ctx)

/-- The text of the first value comes first. -/
theorem membersText_key {key : Bytes} {val : JSValue} {first : Context}
    (isRead : ctx.jsGetPropertyStr engine (.ptr address) key = (val, first)) (fuel : ℕ)
    (isFirst : Bool) (keys : List Bytes) :
    membersText engine (jsonStringifyInner engine fuel) (.ptr address) isFirst (key :: keys) ctx =
      (jsonStringifyInner engine fuel first val false).bind
        (memberThen engine address isFirst key keys fuel) := by
  rw [membersText, isRead]
  refine congrArg (jsonStringifyInner engine fuel first val false).bind (funext fun outcome => ?_)
  rcases outcome with ⟨found, middle⟩
  cases found with
  | none => rfl
  | some text => rfl

/-- One more entry: it is read, its value is written or left out, and the entries behind it are
written. -/
theorem membersText_cons {map : OrderedMap Bytes JSValue} {key : Bytes} {keys : List Bytes}
    {val : JSValue} {text : Option Bytes} {rest : Bytes} {isFirst : Bool} {more moreNames : ℕ}
    (wellFormed : ctx.WellFormed) (holds : ctx.Holds address obj map)
    (unmarked : ctx.Unmarked cells (protoSearchLimit - 1) obj.proto)
    (found : map.get key = some val)
    (noGetter : isAccessorName key = false → asBytes "__get__" ++ key ∉ map.keys)
    {itemBytes itemNames : ℕ}
    (room : ctx.Room (2 * key.length + 39 + itemBytes) (2 + itemNames))
    (item : ∀ after, Context.Adds ctx after → after.Room itemBytes itemNames →
      Ends (fun fuel => jsonStringifyInner engine fuel after val false) after text more moreNames)
    (others : ∀ after, Context.Adds ctx after → after.Room more moreNames →
      Ends (fun fuel => membersText engine (jsonStringifyInner engine fuel) (.ptr address)
        (isFirst && text.isNone) keys after) after rest bytes names) :
    Ends (fun fuel => membersText engine (jsonStringifyInner engine fuel) (.ptr address) isFirst
      (key :: keys) ctx) ctx
      ((text.elim [] fun text => separator isFirst ++ 34 :: key ++ asBytes "\":" ++ text) ++ rest)
      bytes names := by
  obtain ⟨first, isRead, addsRead, roomRead⟩ := Context.jsGetPropertyStr_of_holds engine wellFormed
    holds unmarked found noGetter room
  obtain ⟨middle, settles, adds, roomMiddle⟩ := item first addsRead roomRead
  have addsMiddle := addsRead.trans adds
  obtain ⟨after, settlesOthers, addsOthers, roomAfter⟩ := others middle addsMiddle roomMiddle
  refine ⟨after, ?_, addsMiddle.trans addsOthers, roomAfter⟩
  refine Settles.congr (settles.bind (memberThen engine address isFirst key keys) ?_)
    fun fuel => membersText_key engine isRead fuel isFirst keys
  cases text with
  | none =>
      rw [Option.isNone_none, Bool.and_true] at settlesOthers
      exact settlesOthers
  | some text =>
      rw [Option.isNone_some, Bool.and_false] at settlesOthers
      exact settlesOthers.map (Option.map fun others =>
        (separator isFirst ++ 34 :: key ++ asBytes "\":" ++ text ++ others.1, others.2))

mutual

/-- A value is written as what is kept of its tree. -/
theorem stringify_ends : (tree : Json) → ∀ {ctx : Context} {val : JSValue} {bytes names : ℕ},
    Plain tree → ctx.WellFormed → ctx.Represents cells val tree →
    ctx.Room (writeBytes tree + bytes) (writeNames tree + names) → (inArray : Bool) →
    Ends (fun fuel => jsonStringifyInner engine fuel ctx val inArray) ctx
      (keptText tree inArray) bytes names
  | .null, ctx, val, bytes, names, _, _, represents, room, inArray => by
      cases show val = .null from represents
      exact .leaf (fun _ => rfl) (room.mono (by omega) (by omega))
  | .bool truth, ctx, val, bytes, names, _, _, represents, room, inArray => by
      cases show val = .bool truth from represents
      exact .leaf (fun _ => rfl) (room.mono (by omega) (by omega))
  | .int n, ctx, val, bytes, names, _, _, represents, room, inArray => by
      cases show val = .int n from represents
      exact .leaf (fun fuel => stringify_int engine fuel ctx n inArray)
        (room.mono (by omega) (by omega))
  | .string text, ctx, val, bytes, names, _, _, represents, room, inArray => by
      obtain ⟨address, rfl, -, stored, -⟩ := represents
      have isText : ctx.stringBytes (.ptr address) = some text := by
        rw [Context.stringBytes, stored]
      exact .leaf (fun fuel => stringify_string engine fuel isText inArray)
        (room.mono (by omega) (by omega))
  | .array items, ctx, val, bytes, names, plain, wellFormed, represents, room, inArray => by
      obtain ⟨address, obj, values, rfl, -, holds, unmarked, elements⟩ := represents
      have isLength := elements.length
      have isShort : items.length < 2 ^ 31 := plain.1
      rw [writeBytes, writeNames, Nat.add_assoc, Nat.add_assoc] at room
      refine stringify_array engine wellFormed holds unmarked (isLength ▸ isShort) inArray room
        fun after adds roomAfter => ?_
      have fromStart : after.RepresentsItems cells (values.drop 0) items :=
        elements.mono wellFormed adds.changes nofun subset_rfl
      rw [isLength]
      exact elementsText_ends items plain.2 (adds.changes.wellFormed wellFormed)
        (holds.mono wellFormed adds.changes nofun) (by omega) fromStart roomAfter
  | .object entries, ctx, val, bytes, names, plain, wellFormed, represents, room, inArray => by
      obtain ⟨address, obj, map, rfl, -, holds, isClass, unmarked, members⟩ := represents
      obtain ⟨noGetter, noGetters, -⟩ := plain.1
      rw [← members.keys] at noGetter noGetters
      rw [writeBytes, writeNames, Nat.add_assoc, Nat.add_assoc] at room
      by_cases isMarked : map.get (asBytes "__closure__") = some (.bool true)
      · rw [keptText, kept, if_pos (members.isClosure_iff.mpr isMarked)]
        exact stringify_closure engine wellFormed holds isClass noGetter isMarked unmarked inArray
          (room.mono (by omega) (by omega))
      · rw [keptText, kept, if_neg fun isClosure => isMarked (members.isClosure_iff.mp isClosure)]
        refine stringify_members engine wellFormed holds isClass noGetter isMarked unmarked inArray
          room fun after adds roomAfter => ?_
        exact membersText_ends entries plain.2 (adds.changes.wellFormed wellFormed)
          (holds.mono wellFormed adds.changes nofun) (unmarked.mono wellFormed adds.changes nofun)
          (fun value isEntry => map.get_of_mem isEntry)
          (fun value isEntry notAccessor =>
            noGetters value.1 (List.mem_map_of_mem isEntry) notAccessor)
          (members.mono wellFormed adds.changes nofun subset_rfl) roomAfter

/-- The elements of an array from an index on are written as what is kept of their
trees. -/
theorem elementsText_ends : (items : List Json) → ∀ {ctx : Context} {address index : ℕ}
    {obj : HeapObject} {values : List JSValue} {bytes names : ℕ},
    AllItems PlainNode items → ctx.WellFormed → ctx.HoldsItems address obj values →
    index + items.length < 2 ^ 32 → ctx.RepresentsItems cells (values.drop index) items →
    ctx.Room (itemsWriteBytes items + bytes) (itemsWriteNames items + names) →
    Ends (fun fuel => elementsText (jsonStringifyInner engine fuel) (.ptr address) index
      items.length ctx) ctx (itemsText (index = 0) (keptItems items)) bytes names
  | [], ctx, address, index, obj, values, bytes, names, _, _, _, _, _, room => by
      rw [itemsWriteBytes, itemsWriteNames, Nat.zero_add, Nat.zero_add] at room
      exact ⟨ctx, .of_forall fun _ => rfl, .refl ctx, room⟩
  | item :: items, ctx, address, index, obj, values, bytes, names, plain, wellFormed, holds,
      inRange, represents, room => by
      obtain ⟨val, rest, isRest, isTree, others⟩ := represents
      have isItem : values[index]? = some val := by
        rw [← List.head?_drop, isRest]
        rfl
      have isTail : values.drop (index + 1) = rest := by
        rw [← List.tail_drop, isRest]
        rfl
      rw [itemsWriteBytes, itemsWriteNames, Nat.add_assoc, Nat.add_assoc] at room
      rw [List.length_cons] at inRange ⊢
      have written := stringify_ends item plain.1 wellFormed isTree room true
      rw [keptText_true] at written
      refine elementsText_cons engine holds isItem (by omega) written fun after adds roomAfter => ?_
      exact elementsText_ends items plain.2 (adds.changes.wellFormed wellFormed)
        (holds.mono wellFormed adds.changes nofun) (by omega)
        (isTail ▸ others.mono wellFormed adds.changes nofun subset_rfl) roomAfter

/-- The entries of an object are written as what is kept of their trees. -/
theorem membersText_ends : (entries : List (Bytes × Json)) → ∀ {ctx : Context} {address : ℕ}
    {obj : HeapObject} {map : OrderedMap Bytes JSValue} {values : List (Bytes × JSValue)}
    {isFirst : Bool} {bytes names : ℕ},
    AllEntries PlainNode entries → ctx.WellFormed → ctx.Holds address obj map →
    ctx.Unmarked cells (protoSearchLimit - 1) obj.proto →
    (∀ value ∈ values, map.get value.1 = some value.2) →
    (∀ value ∈ values, isAccessorName value.1 = false →
      asBytes "__get__" ++ value.1 ∉ map.keys) → ctx.RepresentsEntries cells values entries →
    ctx.Room (entriesWriteBytes entries + bytes) (entriesWriteNames entries + names) →
    Ends (fun fuel => membersText engine (jsonStringifyInner engine fuel) (.ptr address) isFirst
      (values.map Prod.fst) ctx) ctx (entriesText isFirst (keptEntries entries)) bytes names
  | [], ctx, address, obj, map, values, isFirst, bytes, names, _, _, _, _, _, _, represents,
      room => by
      rw [entriesWriteBytes, entriesWriteNames, Nat.zero_add, Nat.zero_add] at room
      rw [show values = [] from represents]
      exact ⟨ctx, .of_forall fun _ => rfl, .refl ctx, room⟩
  | (key, item) :: entries, ctx, address, obj, map, values, isFirst, bytes, names, plain,
      wellFormed, holds, unmarked, found, noGetter, represents, room => by
      obtain ⟨val, rest, rfl, isTree, others⟩ := represents
      have room : ctx.Room (2 * key.length + 39 + (writeBytes item + (entriesWriteBytes entries +
          bytes))) (2 + (writeNames item + (entriesWriteNames entries + names))) :=
        room.mono (by rw [entriesWriteBytes]; omega) (by rw [entriesWriteNames]; omega)
      have isFound := found (key, val) List.mem_cons_self
      have notGetter := noGetter (key, val) List.mem_cons_self
      have item_ends (after : Context) (adds : Context.Adds ctx after)
          (roomAfter : after.Room (writeBytes item + (entriesWriteBytes entries + bytes))
            (writeNames item + (entriesWriteNames entries + names))) :=
        stringify_ends item plain.1 (adds.changes.wellFormed wellFormed)
          (isTree.mono wellFormed adds.changes nofun subset_rfl) roomAfter false
      have others_end (isFirst : Bool) (after : Context) (adds : Context.Adds ctx after)
          (roomAfter : after.Room (entriesWriteBytes entries + bytes)
            (entriesWriteNames entries + names)) :
          Ends (fun fuel => membersText engine (jsonStringifyInner engine fuel) (.ptr address)
            isFirst (rest.map Prod.fst) after) after (entriesText isFirst (keptEntries entries))
            bytes names :=
        membersText_ends entries plain.2 (adds.changes.wellFormed wellFormed)
          (holds.mono wellFormed adds.changes nofun) (unmarked.mono wellFormed adds.changes nofun)
          (fun value isEntry => found value (List.mem_cons_of_mem _ isEntry))
          (fun value isEntry => noGetter value (List.mem_cons_of_mem _ isEntry))
          (others.mono wellFormed adds.changes nofun subset_rfl) roomAfter
      rw [keptEntries]
      unfold keptText at item_ends
      cases isKept : kept item with
      | none =>
          rw [isKept] at item_ends
          have ends := membersText_cons engine wellFormed holds unmarked isFound notGetter room
            item_ends (others_end (isFirst && true))
          rw [Bool.and_true] at ends
          exact ends
      | some tree =>
          rw [isKept] at item_ends
          have ends := membersText_cons engine wellFormed holds unmarked isFound notGetter room
            item_ends (others_end (isFirst && false))
          rw [Bool.and_false] at ends
          exact ends

end

end Writing
end Json
end Script
end MuonJs
