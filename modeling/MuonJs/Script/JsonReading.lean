import MuonJs.Script.JsonBuilding

/-!
# Reading JSON

The reader makes a value that stands for the tree of which it reads the text.
Strings and names must be plain, and no name may mark an accessor.  What it makes
lies in cells that it allocates; an array or an object under construction is
changed while its parts are read, but no part lies in it.
-/

namespace MuonJs
namespace Script

open Cache (Bytes F64 asBytes fromUtf8 parseF64 natBytes isAsciiDigit natBytes_spec)
open Descent (Settles)

namespace Json

/-! ## The first byte of a text -/

/-- A byte that a value may start with. -/
def Starts (byte : UInt8) : Prop :=
  byte = 123 ∨ byte = 91 ∨ byte = 34 ∨ byte = 116 ∨ byte = 102 ∨ byte = 110 ∨ byte = 45 ∨
    isAsciiDigit byte = true

theorem starts_i32Bytes (n : Int32) :
    ∃ byte rest, i32Bytes n = byte :: rest ∧ (byte = 45 ∨ isAsciiDigit byte = true) := by
  rw [i32Bytes]
  split
  · exact ⟨45, _, rfl, .inl rfl⟩
  · obtain ⟨digit, others, isText, isDigit, -⟩ := natBytes_spec n.toInt.natAbs
    exact ⟨digit, others, isText, .inr isDigit⟩

theorem starts_text (tree : Json) : ∃ byte rest, tree.text = byte :: rest ∧ Starts byte := by
  cases tree with
  | null => exact ⟨110, _, rfl, by simp [Starts]⟩
  | bool truth =>
      cases truth with
      | true => exact ⟨116, _, rfl, by simp [Starts]⟩
      | false => exact ⟨102, _, rfl, by simp [Starts]⟩
  | int n =>
      obtain ⟨byte, rest, isText, isNumber⟩ := starts_i32Bytes n
      exact ⟨byte, rest, isText, by simp [Starts, isNumber]⟩
  | string bytes => exact ⟨34, _, rfl, by simp [Starts]⟩
  | array items => exact ⟨91, _, rfl, by simp [Starts]⟩
  | object entries => exact ⟨123, _, rfl, by simp [Starts]⟩

/-- The byte is no white space. -/
def Solid (byte : UInt8) : Prop := (byte = 32 || byte = 10 || byte = 13 || byte = 9) = false

theorem skipWs_cons {byte : UInt8} (solid : Solid byte) (rest : Bytes) :
    skipWs (byte :: rest) = byte :: rest := by
  rw [skipWs, List.dropWhile_cons, if_neg (by rw [solid]; exact Bool.false_ne_true)]

theorem solid_of_digit {byte : UInt8} (isDigit : isAsciiDigit byte = true) :
    Solid byte ∧ byte ≠ 93 ∧ byte ≠ 125 := by
  have not_digit (other : UInt8) (notDigit : isAsciiDigit other = false) : byte ≠ other := by
    rintro rfl
    rw [notDigit] at isDigit
    cases isDigit
  refine ⟨?_, not_digit 93 rfl, not_digit 125 rfl⟩
  rw [Solid, decide_eq_false (not_digit 32 rfl), decide_eq_false (not_digit 10 rfl),
    decide_eq_false (not_digit 13 rfl), decide_eq_false (not_digit 9 rfl)]
  rfl

theorem Starts.solid {byte : UInt8} (starts : Starts byte) :
    Solid byte ∧ byte ≠ 93 ∧ byte ≠ 125 := by
  rcases starts with rfl | rfl | rfl | rfl | rfl | rfl | rfl | isDigit
  · exact ⟨rfl, by decide, by decide⟩
  · exact ⟨rfl, by decide, by decide⟩
  · exact ⟨rfl, by decide, by decide⟩
  · exact ⟨rfl, by decide, by decide⟩
  · exact ⟨rfl, by decide, by decide⟩
  · exact ⟨rfl, by decide, by decide⟩
  · exact ⟨rfl, by decide, by decide⟩
  · exact solid_of_digit isDigit

/-! ## One value -/

section Values

variable (engine : Engine) (fuel : ℕ) (ctx : Context)

/-- Where an input starts with a byte that is no white space, the value is read
from there. -/
theorem parseValue_literal {literal : String} {val : JSValue} {rest : Bytes}
    (isLiteral : literal = "null" ∧ val = .null ∨ literal = "true" ∧ val = .bool true ∨
      literal = "false" ∧ val = .bool false) :
    parseValue engine (fuel + 1) ctx (asBytes literal ++ rest) = some (some (val, rest, ctx)) := by
  have taken : parseLiteral literal val ctx (asBytes literal ++ rest) = some (val, rest, ctx) := by
    rw [parseLiteral, if_pos (List.isPrefixOf_iff_prefix.mpr (List.prefix_append _ _)),
      List.drop_left]
  rcases isLiteral with ⟨rfl, rfl⟩ | ⟨rfl, rfl⟩ | ⟨rfl, rfl⟩
  · exact congrArg some taken
  · exact congrArg some taken
  · exact congrArg some taken

theorem parseValue_number {byte : UInt8} {rest : Bytes}
    (isNumber : byte = 45 ∨ isAsciiDigit byte = true) :
    parseValue engine (fuel + 1) ctx (byte :: rest) = some (parseJsonNumber ctx (byte :: rest)) := by
  have solid : Solid byte := by
    rcases isNumber with rfl | isDigit
    · rfl
    · exact (solid_of_digit isDigit).1
  have different (other : UInt8) (notNumber : other ≠ 45 ∧ isAsciiDigit other = false) :
      byte ≠ other := by
    rintro rfl
    rcases isNumber with rfl | isDigit
    · exact notNumber.1 rfl
    · rw [notNumber.2] at isDigit
      cases isDigit
  rw [parseValue, skipWs_cons solid]
  split
  · rename_i same
    exact absurd (List.cons.inj same).1 (different 123 ⟨by decide, rfl⟩)
  · rename_i same
    exact absurd (List.cons.inj same).1 (different 91 ⟨by decide, rfl⟩)
  · rename_i same
    exact absurd (List.cons.inj same).1 (different 34 ⟨by decide, rfl⟩)
  · rename_i same
    exact absurd (List.cons.inj same).1 (different 116 ⟨by decide, rfl⟩)
  · rename_i same
    exact absurd (List.cons.inj same).1 (different 102 ⟨by decide, rfl⟩)
  · rename_i same
    exact absurd (List.cons.inj same).1 (different 110 ⟨by decide, rfl⟩)
  · rename_i same
    obtain ⟨rfl, rfl⟩ := List.cons.inj same
    exact if_pos isNumber
  · rename_i same
    cases same

/-- An integer is read from its text. -/
theorem parseValue_int (n : Int32) {rest : Bytes} (follows : Follows rest) :
    parseValue engine (fuel + 1) ctx (i32Bytes n ++ rest) = some (some (.int n, rest, ctx)) := by
  obtain ⟨byte, others, isText, isNumber⟩ := starts_i32Bytes n
  have isRead : parseJsonNumber ctx (i32Bytes n ++ rest) = some (.int n, rest, ctx) := by
    rw [parseJsonNumber, takeNumber_i32Bytes n follows, Option.bind_some]
    dsimp only
    rw [parseF64_i32Bytes, Option.map_some, numberToValue_i32AsF64]
  rw [isText] at isRead ⊢
  rw [List.cons_append, parseValue_number engine fuel ctx isNumber, ← List.cons_append, isRead]

/-- The outcome on the text of a string is that of its loop. -/
theorem parseValue_string {bytes : Bytes} (isText : (fromUtf8 bytes).isSome) (rest : Bytes) :
    parseValue engine (fuel + 1) ctx ((string bytes).text ++ rest) =
      some ((parseStringLoop (bytes.flatMap escapeByte ++ 34 :: rest)).bind fun (bytes, rest) =>
        if (fromUtf8 bytes).isSome then
          let (val, ctx) := ctx.newString bytes
          some (val, rest, ctx)
        else none) := by
  rw [text, stringText_eq isText, List.append_assoc, List.cons_append, List.singleton_append,
    parseValue, skipWs_cons (by exact rfl)]
  rfl

end Values

/-! ## Costs -/

mutual

/-- Memory that reading a tree takes at most. -/
def readBytes : Json → ℕ
  | .string bytes => bytes.length + 16
  | .array items => 87 + itemsReadBytes items
  | .object entries => 87 + entriesReadBytes entries
  | _ => 0

@[inherit_doc readBytes]
def itemsReadBytes : List Json → ℕ
  | [] => 0
  | item :: items => readBytes item + 39 + itemsReadBytes items

@[inherit_doc readBytes]
def entriesReadBytes : List (Bytes × Json) → ℕ
  | [] => 0
  | (key, value) :: entries => readBytes value + (2 * key.length + 70) + entriesReadBytes entries

end

mutual

/-- Atoms that reading a tree takes at most. -/
def readNames : Json → ℕ
  | .array items => itemsReadNames items
  | .object entries => entriesReadNames entries
  | _ => 0

@[inherit_doc readNames]
def itemsReadNames : List Json → ℕ
  | [] => 0
  | item :: items => readNames item + itemsReadNames items

@[inherit_doc readNames]
def entriesReadNames : List (Bytes × Json) → ℕ
  | [] => 0
  | (_, value) :: entries => readNames value + 2 + entriesReadNames entries

end

/-! ## What a parse comes to -/

/-- With enough fuel, a plain text gives a good value, and any other text is
rejected. -/
def Comes {α : Type} (run : ℕ → Parsed α) (plain : Prop) (good : α → Prop) : Prop :=
  (plain ∧ ∃ value, Settles run (some (some value)) ∧ good value) ∨
    (¬plain ∧ Settles run (some none))

namespace Comes

variable {α β : Type} {run : ℕ → Parsed α} {plain : Prop} {good : α → Prop}

theorem of_succ (comes : Comes (fun fuel => run (fuel + 1)) plain good) : Comes run plain good := by
  rcases comes with ⟨isPlain, value, settles, isGood⟩ | ⟨notPlain, settles⟩
  · exact .inl ⟨isPlain, value, settles.of_succ, isGood⟩
  · exact .inr ⟨notPlain, settles.of_succ⟩

theorem congr {run' : ℕ → Parsed α} (comes : Comes run plain good)
    (same : ∀ fuel, run' fuel = run fuel) : Comes run' plain good := by
  rw [funext same]
  exact comes

theorem add (comes : Comes run plain good) (more : ℕ) :
    Comes (fun fuel => run (fuel + more)) plain good := by
  rcases comes with ⟨isPlain, value, settles, isGood⟩ | ⟨notPlain, settles⟩
  · exact .inl ⟨isPlain, value, settles.add more, isGood⟩
  · exact .inr ⟨notPlain, settles.add more⟩

theorem of_value (isPlain : plain) (value : α) (always : ∀ fuel, run fuel = some (some value))
    (isGood : good value) : Comes run plain good :=
  .inl ⟨isPlain, value, .of_forall always, isGood⟩

theorem imp {plain' : Prop} {good' : α → Prop} (comes : Comes run plain good)
    (same : plain ↔ plain') (better : ∀ value, good value → good' value) :
    Comes run plain' good' := by
  rcases comes with ⟨isPlain, value, settles, isGood⟩ | ⟨notPlain, settles⟩
  · exact .inl ⟨same.mp isPlain, value, settles, better value isGood⟩
  · exact .inr ⟨fun isPlain => notPlain (same.mpr isPlain), settles⟩

/-- A parse goes on where the first one has stopped, if it was not rejected. -/
theorem andThen (next : ℕ → α → Parsed β) {plainNext : Prop} {goodNext : β → Prop}
    (comes : Comes run plain good)
    (goesOn : ∀ value, good value → Comes (fun fuel => next fuel value) plainNext goodNext) :
    Comes (fun fuel => (run fuel).andThen (next fuel)) (plain ∧ plainNext) goodNext := by
  rcases comes with ⟨isPlain, value, settles, isGood⟩ | ⟨notPlain, settles⟩
  · rcases goesOn value isGood with ⟨isNext, result, settlesNext, isGoodNext⟩ |
      ⟨notNext, settlesNext⟩
    · exact .inl ⟨⟨isPlain, isNext⟩, result, settles.bind _ settlesNext, isGoodNext⟩
    · exact .inr ⟨fun both => notNext both.2, settles.bind _ settlesNext⟩
  · exact .inr ⟨fun both => notPlain both.1, settles.bind _ (.of_forall fun _ => rfl)⟩

end Comes

/-! ## The context of the reader -/

/-- What leaves out no place leaves out no cell. -/
theorem nowhere {cells : Set ℕ} : ∀ address ∈ cells, (none : Option ℕ) ≠ some address :=
  fun address _ => (Option.some_ne_none address).symm

/-- New cells count among the cells, and what objects and arrays inherit from is
unmarked. -/
structure Ready (engine : Engine) (ctx : Context) (cells : Set ℕ) : Prop where
  wellFormed : ctx.WellFormed
  fresh : ∀ address, ctx.mem.offset ≤ address → address ∈ cells
  objects : ctx.Unmarked cells (protoSearchLimit - 1) ctx.objectProto
  isSet : engine.arrays.proto ≠ .undefined
  arrays : ctx.Unmarked cells (protoSearchLimit - 1) engine.arrays.proto

namespace Ready

variable {engine : Engine} {ctx after : Context} {cells : Set ℕ} (ready : Ready engine ctx cells)

include ready

theorem adds (adds : Context.Adds ctx after) : Ready engine after cells where
  wellFormed := adds.changes.wellFormed ready.wellFormed
  fresh := fun address isNew => ready.fresh address (adds.changes.offset.trans isNew)
  objects := by
    rw [adds.proto]
    exact ready.objects.mono ready.wellFormed adds.changes nowhere
  isSet := ready.isSet
  arrays := ready.arrays.mono ready.wellFormed adds.changes nowhere

/-- A place in use may be left out of the cells when it is new. -/
theorem without (adds : Context.Adds ctx after) {place : ℕ} (isNew : ctx.mem.offset ≤ place)
    (inUse : place < after.mem.offset) : Ready engine after (cells \ {place}) := by
  have kept (address : ℕ) (isCell : address ∈ cells) (isOld : address < ctx.mem.offset) :
      address ∈ cells \ {place} := by
    refine ⟨isCell, ?_⟩
    rintro rfl
    omega
  have readyAfter := ready.adds adds
  refine ⟨readyAfter.wellFormed, fun address isFree => ⟨readyAfter.fresh address isFree, ?_⟩,
    ?_, ready.isSet, ?_⟩
  · rintro rfl
    omega
  · rw [adds.proto]
    exact (ready.objects.inUse ready.wellFormed kept).mono ready.wellFormed adds.changes nowhere
  · exact (ready.arrays.inUse ready.wellFormed kept).mono ready.wellFormed adds.changes nowhere

theorem edits {place : ℕ} (edits : Context.Edits place ctx after) (elsewhere : place ∉ cells) :
    Ready engine after cells := by
  have other : ∀ address ∈ cells, some place ≠ some address := by
    rintro address isCell ⟨⟩
    exact elsewhere isCell
  refine ⟨edits.changes.wellFormed ready.wellFormed,
    fun address isNew => ready.fresh address (edits.changes.offset.trans isNew), ?_, ready.isSet,
    ready.arrays.mono ready.wellFormed edits.changes other⟩
  rw [edits.proto]
  exact ready.objects.mono ready.wellFormed edits.changes other

end Ready

/-! ## Reading a tree -/

/-- A name that is read back. -/
def ReadableKey (key : Bytes) : Prop :=
  PlainKey key ∧ Context.ProperName key ∧ (fromUtf8 key).isSome

/-- A string that is text, an array with a length in range, or an object with
distinct names that are read back and no accessors that are found. -/
def ReadableNode : Json → Prop
  | .string bytes => (fromUtf8 bytes).isSome
  | .array items => items.length < 2 ^ 31
  | .object entries =>
      (entries.map Prod.fst).Nodup ∧ (∀ entry ∈ entries, ReadableKey entry.1) ∧
        Accessorless (entries.map Prod.fst)
  | _ => True

/-- The string, if it is one, is read back. -/
def PlainString : Json → Prop
  | .string bytes => PlainBytes bytes
  | _ => True

/-- What the loop over the elements does with a value that was read. -/
def afterElement (read : JsonReader) (arr : JSValue) (turns : ℕ) :
    JSValue × Bytes × Context → Parsed (Bytes × Context)
  | (val, input, ctx) =>
      match ctx.jsArrayPush arr val with
      | (.exception, _) => some none
      | (_, ctx) =>
          match skipWs input with
          | 44 :: rest => parseElements read arr turns ctx (skipWs rest)
          | 93 :: rest => some (some (rest, ctx))
          | _ => some none

theorem parseElements_succ (read : JsonReader) (arr : JSValue) (turns : ℕ) (ctx : Context)
    (input : Bytes) : parseElements read arr (turns + 1) ctx input =
      (read ctx input).andThen (afterElement read arr turns) := rfl

section Elements

variable (read : JsonReader) (turns : ℕ) {ctx after : Context} {arr val : JSValue} {count : Int32}
  (isPushed : ctx.jsArrayPush arr val = (.int count, after)) (rest : Bytes)

include isPushed

theorem afterElement_close :
    afterElement read arr turns (val, 93 :: rest, ctx) = some (some (rest, after)) := by
  rw [afterElement, isPushed]
  dsimp only
  rw [skipWs_cons (by exact rfl)]
  rfl

theorem afterElement_comma :
    afterElement read arr turns (val, 44 :: rest, ctx) =
      parseElements read arr turns after (skipWs rest) := by
  rw [afterElement, isPushed]
  dsimp only
  rw [skipWs_cons (by exact rfl)]
  rfl

end Elements

/-- What the loop over the members does with a value that was read for a name. -/
def afterMember (engine : Engine) (read : JsonReader) (obj : JSValue) (key : Bytes) (turns : ℕ) :
    JSValue × Bytes × Context → Parsed (Bytes × Context)
  | (val, input, ctx) =>
      match ctx.jsSetPropertyStr engine obj key val with
      | (.exception, _) => some none
      | (_, ctx) =>
          match skipWs input with
          | 44 :: rest => parseMembers engine read obj turns ctx rest
          | 125 :: rest => some (some (rest, ctx))
          | _ => some none

/-- A plain name is read, and the value after it. -/
theorem parseMembers_key (engine : Engine) (read : JsonReader) (obj : JSValue) (turns : ℕ)
    (ctx : Context) {key : Bytes} (plain : PlainKey key) (isText : (fromUtf8 key).isSome)
    (rest : Bytes) :
    parseMembers engine read obj (turns + 1) ctx (34 :: key ++ asBytes "\":" ++ rest) =
      (read ctx rest).andThen (afterMember engine read obj key turns) := by
  have isKey : parseStringBytes (skipWs (34 :: key ++ asBytes "\":" ++ rest)) =
      some (key, 58 :: rest) := by
    rw [List.append_assoc, List.cons_append, skipWs_cons (by exact rfl), parseStringBytes]
    exact parseStringLoop_key plain (58 :: rest)
  rw [parseMembers, isKey]
  dsimp only
  rw [if_neg (by rw [Option.isNone_iff_eq_none, ← ne_eq, ← Option.isSome_iff_ne_none]; exact isText),
    skipWs_cons (by exact rfl)]
  rfl

section Members

variable (engine : Engine) (read : JsonReader) (turns : ℕ) {ctx after : Context}
  {obj val : JSValue} {key : Bytes}
  (isSet : ctx.jsSetPropertyStr engine obj key val = (val, after)) (notException : val ≠ .exception)
  (rest : Bytes)

include isSet notException

theorem afterMember_close :
    afterMember engine read obj key turns (val, 125 :: rest, ctx) = some (some (rest, after)) := by
  rw [afterMember, isSet, skipWs_cons (by exact rfl)]
  cases val with
  | exception => exact absurd rfl notException
  | _ => rfl

theorem afterMember_comma :
    afterMember engine read obj key turns (val, 44 :: rest, ctx) =
      parseMembers engine read obj turns after rest := by
  rw [afterMember, isSet, skipWs_cons (by exact rfl)]
  cases val with
  | exception => exact absurd rfl notException
  | _ => rfl

end Members

/-- What the reader makes of the text of a tree. -/
def Made (ctx : Context) (cells : Set ℕ) (tree : Json) (rest : Bytes) (bytes names : ℕ) :
    JSValue × Bytes × Context → Prop
  | (val, left, after) =>
      left = rest ∧ Context.Adds ctx after ∧ after.Room bytes names ∧
        after.Represents cells val tree

section Reading

variable {engine : Engine} {ctx : Context} {cells : Set ℕ} {bytes names : ℕ}

theorem parseValue_string_comes {text : Bytes} (isText : (fromUtf8 text).isSome)
    (ready : Ready engine ctx cells) (rest : Bytes)
    (room : ctx.Room (text.length + 16 + bytes) names) :
    Comes (fun fuel => parseValue engine fuel ctx ((string text).text ++ rest))
      (PlainBytes text) (Made ctx cells (.string text) rest bytes names) := by
  refine .of_succ ?_
  by_cases plain : PlainBytes text
  · obtain ⟨address, after, created, adds, roomAfter, isNew, stored⟩ :=
      Context.newString_of_room room
    refine .of_value plain (.ptr address, rest, after) (fun fuel => ?_)
      ⟨rfl, adds, roomAfter, address, rfl, ready.fresh address isNew, stored, isText⟩
    rw [parseValue_string engine fuel ctx isText, parseStringLoop_plain plain, Option.bind_some]
    dsimp only
    rw [if_pos isText, created]
  · refine .inr ⟨plain, .of_forall fun fuel => ?_⟩
    rw [parseValue_string engine fuel ctx isText, parseStringLoop_not_plain plain]
    rfl

/-! ### Arrays -/

theorem parseValue_bracket (engine : Engine) (fuel : ℕ) (ctx : Context) (rest : Bytes) :
    parseValue engine (fuel + 1) ctx (91 :: rest) =
      match Context.jsNewArray engine.arrays ctx with
      | (.exception, _) => some none
      | (arr, ctx) =>
          match skipWs rest with
          | 93 :: rest => some (some (arr, rest, ctx))
          | rest =>
              Parsed.andThen (parseElements (parseValue engine fuel) arr fuel ctx rest)
                fun (rest, ctx) => some (some (arr, rest, ctx)) := by
  rw [parseValue, skipWs_cons (by exact rfl)]
  rfl

theorem parseValue_array_empty (fuel : ℕ) {arr : JSValue} {after : Context}
    (created : Context.jsNewArray engine.arrays ctx = (arr, after)) (notException : arr ≠ .exception)
    (rest : Bytes) :
    parseValue engine (fuel + 1) ctx (91 :: 93 :: rest) = some (some (arr, rest, after)) := by
  rw [parseValue_bracket, created, skipWs_cons (by exact rfl)]
  cases arr with
  | exception => exact absurd rfl notException
  | _ => rfl

theorem parseValue_array_open (fuel : ℕ) {arr : JSValue} {after : Context}
    (created : Context.jsNewArray engine.arrays ctx = (arr, after)) (notException : arr ≠ .exception)
    {byte : UInt8} (starts : Starts byte) (rest : Bytes) :
    parseValue engine (fuel + 1) ctx (91 :: byte :: rest) =
      (parseElements (parseValue engine fuel) arr fuel after (byte :: rest)).andThen
        fun (rest, ctx) => some (some (arr, rest, ctx)) := by
  obtain ⟨solid, notClose, -⟩ := starts.solid
  rw [parseValue_bracket, created, skipWs_cons solid]
  cases arr with
  | exception => exact absurd rfl notException
  | _ =>
      dsimp only
      split
      · rename_i same
        exact absurd (List.cons.inj same).1 notClose
      · rfl

/-- What the loop over the elements makes of the texts of the remaining items. -/
def MadeItems (ctx : Context) (cells : Set ℕ) (place : ℕ) (proto : JSValue) (items : List Json)
    (rest : Bytes) (bytes names : ℕ) : Bytes × Context → Prop
  | (left, after) =>
      left = rest ∧ Context.Edits place ctx after ∧ after.Room bytes names ∧
        ∃ obj values, after.Growing place obj values ∧ obj.proto = proto ∧
          after.RepresentsItems cells values items

/-- The array under construction stands for the array of its items. -/
theorem Made.of_items {middle : Context} {items : List Json} {rest : Bytes} {place : ℕ}
    (ready : Ready engine ctx cells) (adds : Context.Adds ctx middle)
    (isNew : ctx.mem.offset ≤ place) {obj : HeapObject} (isProto : obj.proto = engine.arrays.proto)
    {left : Bytes} {after : Context}
    (made : MadeItems middle (cells \ {place}) place obj.proto items rest bytes names (left, after)) :
    Made ctx cells (.array items) rest bytes names (.ptr place, left, after) := by
  obtain ⟨isRest, edits, room, grown, values, growing, sameProto, represents⟩ := made
  have addsAfter := adds.edit isNew edits
  have readyAfter := ready.adds addsAfter
  refine ⟨isRest, addsAfter, room, place, grown, values, rfl, ready.fresh place isNew,
    growing.toHoldsItems, ?_, ?_⟩
  · rw [sameProto, isProto]
    exact readyAfter.arrays
  · exact represents.mono readyAfter.wellFormed (.refl none after) nowhere Set.sdiff_subset

/-- An array without items is read. -/
theorem parseValue_array_nil_comes (rest : Bytes) (ready : Ready engine ctx cells)
    (room : ctx.Room (87 + bytes) names) :
    Comes (fun fuel => parseValue engine fuel ctx ((array []).text ++ rest))
      (AllItems PlainString []) (Made ctx cells (.array []) rest bytes names) := by
  obtain ⟨place, obj, after, created, adds, roomAfter, isNew, inUse, growing, isProto, -⟩ :=
    Context.jsNewArray_of_room ready.isSet room
  refine .of_succ (.of_value trivial (.ptr place, rest, after)
    (fun fuel => parseValue_array_empty fuel created nofun rest) ?_)
  exact .of_items ready adds isNew isProto ⟨rfl, ⟨.refl _ _, rfl⟩, roomAfter, obj, [], growing, rfl,
    rfl⟩

/-- An array is read when its elements are. -/
theorem parseValue_array_comes {item : Json} {items : List Json} {rest : Bytes}
    {more moreNames : ℕ} (ready : Ready engine ctx cells) (room : ctx.Room (87 + more) moreNames)
    (elements : ∀ after address obj, Ready engine after (cells \ {address}) →
      after.Growing address obj [] → Context.credit obj = 0 → after.Room more moreNames →
      Comes (fun fuel => parseElements (parseValue engine fuel) (.ptr address) fuel after
          (itemsText true (item :: items) ++ 93 :: rest)) (AllItems PlainString (item :: items))
        (MadeItems after (cells \ {address}) address obj.proto (item :: items) rest bytes names)) :
    Comes (fun fuel => parseValue engine fuel ctx ((array (item :: items)).text ++ rest))
      (AllItems PlainString (item :: items))
      (Made ctx cells (.array (item :: items)) rest bytes names) := by
  obtain ⟨place, obj, after, created, adds, roomAfter, isNew, inUse, growing, isProto, noCredit⟩ :=
    Context.jsNewArray_of_room ready.isSet room
  have loop := elements after place obj (ready.without adds isNew inUse) growing noCredit roomAfter
  obtain ⟨byte, others, isText, starts⟩ := starts_text item
  have isInput : (array (item :: items)).text ++ rest =
      91 :: (itemsText true (item :: items) ++ 93 :: rest) := by
    rw [text, List.append_assoc]
    rfl
  have isHead : itemsText true (item :: items) ++ 93 :: rest =
      byte :: (others ++ itemsText false items ++ 93 :: rest) := by
    rw [itemsText, isText]
    rfl
  have finished : Comes (fun fuel => (parseElements (parseValue engine fuel) (.ptr place) fuel after
      (itemsText true (item :: items) ++ 93 :: rest)).andThen
        fun (rest, ctx) => some (some (.ptr place, rest, ctx)))
      (AllItems PlainString (item :: items) ∧ True)
      (Made ctx cells (.array (item :: items)) rest bytes names) :=
    loop.andThen (fun _ (read : Bytes × Context) => some (some (JSValue.ptr place, read)))
      fun (left, final) made =>
        .of_value trivial (JSValue.ptr place, left, final) (fun _ => rfl)
          (.of_items ready adds isNew isProto made)
  refine .of_succ ((finished.imp (and_true _ ▸ Iff.rfl) fun _ good => good).congr fun fuel => ?_)
  rw [isInput, isHead, parseValue_array_open fuel created nofun starts]

/-- The loop goes on after an item that was read. -/
theorem parseElements_cons_comes {place : ℕ} {obj : HeapObject} {values : List JSValue}
    {done items : List Json} {item : Json} {rest : Bytes} (more : ℕ) {itemBytes itemNames : ℕ}
    (ready : Ready engine ctx cells) (elsewhere : place ∉ cells)
    (growing : ctx.Growing place obj values) (represents : ctx.RepresentsItems cells values done)
    (isShort : values.length < 2 ^ 31)
    (first : Comes (fun fuel => parseValue engine fuel ctx
        (item.text ++ (itemsText false items ++ 93 :: rest))) (item.All PlainString)
      (Made ctx cells item (itemsText false items ++ 93 :: rest)
        (39 + Context.credit obj + itemBytes) itemNames))
    (others : ∀ next nextItems, items = next :: nextItems → ∀ after obj' values' ,
      Ready engine after cells → after.Growing place obj' values' → obj'.proto = obj.proto →
      values'.length = values.length + 1 →
      after.RepresentsItems cells values' (done ++ [item]) →
      after.Room (Context.credit obj' + itemBytes) itemNames →
      Comes (fun fuel => parseElements (parseValue engine (fuel + (more + 1))) (.ptr place) fuel
          after (itemsText true items ++ 93 :: rest)) (AllItems PlainString items)
        (MadeItems after cells place obj.proto (done ++ [item] ++ items) rest bytes names))
    (last : items = [] → bytes = itemBytes ∧ names = itemNames) :
    Comes (fun fuel => parseElements (parseValue engine (fuel + more)) (.ptr place) fuel ctx
        (itemsText true (item :: items) ++ 93 :: rest)) (AllItems PlainString (item :: items))
      (MadeItems ctx cells place obj.proto (done ++ item :: items) rest bytes names) := by
  refine .of_succ (.congr ((first.add (more + 1)).andThen
    (fun fuel => afterElement (parseValue engine (fuel + (more + 1))) (.ptr place) fuel)
    fun (val, left, middle) made => ?_) fun fuel => ?_)
  rotate_left
  · rw [parseElements_succ, itemsText, separator, if_pos rfl, List.nil_append, List.append_assoc,
      Nat.add_assoc, Nat.add_comm 1]
  obtain ⟨isLeft, adds, room, isTree⟩ := made
  have readyMiddle := ready.adds adds
  obtain ⟨count, obj', after, isPushed, edits, growingAfter, sameProto, roomAfter⟩ :=
    Context.jsArrayPush_of_room readyMiddle.wellFormed (growing.mono ready.wellFormed adds.changes)
      isShort val room
  have elsewhere' : ∀ address ∈ cells, some place ≠ some address := by
    rintro address isCell ⟨⟩
    exact elsewhere isCell
  have represented : after.RepresentsItems cells (values ++ [val]) (done ++ [item]) :=
    ((represents.mono ready.wellFormed adds.changes nowhere subset_rfl).append isTree).mono
      readyMiddle.wellFormed edits.changes elsewhere' subset_rfl
  have editsAfter := edits.after adds
  rw [isLeft]
  cases items with
  | nil =>
      obtain ⟨rfl, rfl⟩ := last rfl
      refine .of_value trivial (rest, after) (fun fuel => ?_)
        ⟨rfl, editsAfter, roomAfter.mono (Nat.le_add_left _ _) le_rfl, obj', _, growingAfter,
          sameProto, represented⟩
      exact afterElement_close _ _ isPushed rest
  | cons next nextItems =>
      have loop := others next nextItems rfl after obj' _ (readyMiddle.edits edits elsewhere)
        growingAfter sameProto (by rw [List.length_append, List.length_singleton]) represented
        roomAfter
      have better : ∀ result, MadeItems after cells place obj.proto
          (done ++ [item] ++ next :: nextItems) rest bytes names result →
          MadeItems ctx cells place obj.proto (done ++ item :: next :: nextItems) rest bytes names
            result := by
        rintro ⟨left, final⟩ made
        obtain ⟨isRest, editsFinal, roomFinal, grown, values', isGrown, isProto, isArray⟩ := made
        refine ⟨isRest, ⟨editsAfter.changes.trans editsFinal.changes,
          editsFinal.proto.trans editsAfter.proto⟩, roomFinal, grown, values', isGrown, isProto, ?_⟩
        rw [List.append_assoc] at isArray
        exact isArray
      refine (loop.imp Iff.rfl better).congr fun fuel => ?_
      obtain ⟨byte, otherBytes, isText, starts⟩ := starts_text next
      have isInput : itemsText false (next :: nextItems) ++ 93 :: rest =
          44 :: (itemsText true (next :: nextItems) ++ 93 :: rest) := rfl
      have isHead : itemsText true (next :: nextItems) ++ 93 :: rest =
          byte :: (otherBytes ++ itemsText false nextItems ++ 93 :: rest) := by
        rw [itemsText, isText]
        rfl
      rw [isInput, afterElement_comma _ _ isPushed, isHead, skipWs_cons starts.solid.1]

/-! ### Objects -/

theorem parseValue_brace (engine : Engine) (fuel : ℕ) (ctx : Context) (rest : Bytes) :
    parseValue engine (fuel + 1) ctx (123 :: rest) =
      match ctx.jsNewObject with
      | (.exception, _) => some none
      | (obj, ctx) =>
          match skipWs rest with
          | 125 :: rest => some (some (obj, rest, ctx))
          | rest =>
              Parsed.andThen (parseMembers engine (parseValue engine fuel) obj fuel ctx rest)
                fun (rest, ctx) => some (some (obj, rest, ctx)) := by
  rw [parseValue, skipWs_cons (by exact rfl)]
  rfl

theorem parseValue_object_empty (fuel : ℕ) {place : ℕ} {after : Context}
    (created : ctx.jsNewObject = (.ptr place, after)) (rest : Bytes) :
    parseValue engine (fuel + 1) ctx (123 :: 125 :: rest) =
      some (some (.ptr place, rest, after)) := by
  rw [parseValue_brace, created, skipWs_cons (by exact rfl)]
  rfl

theorem parseValue_object_open (fuel : ℕ) {place : ℕ} {after : Context}
    (created : ctx.jsNewObject = (.ptr place, after)) (rest : Bytes) :
    parseValue engine (fuel + 1) ctx (123 :: 34 :: rest) =
      (parseMembers engine (parseValue engine fuel) (.ptr place) fuel after (34 :: rest)).andThen
        fun (rest, ctx) => some (some (.ptr place, rest, ctx)) := by
  rw [parseValue_brace, created, skipWs_cons (by exact rfl)]
  rfl

/-- What the loop over the members makes of the texts of the remaining entries. -/
def MadeEntries (ctx : Context) (cells : Set ℕ) (place : ℕ) (proto : JSValue)
    (entries : List (Bytes × Json)) (rest : Bytes) (bytes names : ℕ) : Bytes × Context → Prop
  | (left, after) =>
      left = rest ∧ Context.Edits place ctx after ∧ after.Room bytes names ∧
        ∃ obj map, after.Filling place obj map ∧ obj.proto = proto ∧
          after.RepresentsEntries cells map.entries entries

/-- The object under construction stands for the object of its entries. -/
theorem Made.of_entries {middle : Context} {entries : List (Bytes × Json)} {rest : Bytes}
    {place : ℕ} (ready : Ready engine ctx cells) (adds : Context.Adds ctx middle)
    (isNew : ctx.mem.offset ≤ place) {proto : JSValue}
    (isProto : proto = ctx.objectProto ∨ proto = .null) {left : Bytes} {after : Context}
    (made : MadeEntries middle (cells \ {place}) place proto entries rest bytes names
      (left, after)) :
    Made ctx cells (.object entries) rest bytes names (.ptr place, left, after) := by
  obtain ⟨isRest, edits, room, obj, map, filling, sameProto, represents⟩ := made
  have addsAfter := adds.edit isNew edits
  have readyAfter := ready.adds addsAfter
  refine ⟨isRest, addsAfter, room, place, obj, map, rfl, ready.fresh place isNew, filling.toHolds,
    filling.isClass, ?_, ?_⟩
  · rw [sameProto]
    rcases isProto with rfl | rfl
    · rw [← addsAfter.proto]
      exact readyAfter.objects
    · exact .inl rfl
  · exact represents.mono readyAfter.wellFormed (.refl none after) nowhere Set.sdiff_subset

/-- The names in a text of entries, and what follows them. -/
theorem entriesText_cons (key : Bytes) (value : Json) (entries : List (Bytes × Json))
    (rest : Bytes) :
    entriesText true ((key, value) :: entries) ++ 125 :: rest =
      34 :: key ++ asBytes "\":" ++ (value.text ++ (entriesText false entries ++ 125 :: rest)) := by
  rw [entriesText, separator, if_pos rfl, List.nil_append, List.append_assoc, List.append_assoc]

/-- An object without entries is read. -/
theorem parseValue_object_nil_comes (rest : Bytes) (ready : Ready engine ctx cells)
    (room : ctx.Room (87 + bytes) names) :
    Comes (fun fuel => parseValue engine fuel ctx ((object []).text ++ rest))
      (AllEntries PlainString []) (Made ctx cells (.object []) rest bytes names) := by
  obtain ⟨place, obj, after, created, adds, roomAfter, isNew, inUse, filling, isProto⟩ :=
    Context.jsNewObject_of_room ready.wellFormed room
  refine .of_succ (.of_value trivial (.ptr place, rest, after)
    (fun fuel => parseValue_object_empty fuel created rest) ?_)
  exact .of_entries ready adds isNew isProto ⟨rfl, ⟨.refl _ _, rfl⟩, roomAfter, obj, .empty,
    filling, rfl, rfl⟩

/-- An object is read when its entries are. -/
theorem parseValue_object_comes {key : Bytes} {value : Json} {entries : List (Bytes × Json)}
    {rest : Bytes} {more moreNames : ℕ} (ready : Ready engine ctx cells)
    (room : ctx.Room (87 + more) moreNames)
    (members : ∀ after address obj, Ready engine after (cells \ {address}) →
      after.Unmarked (cells \ {address}) (protoSearchLimit - 1) obj.proto →
      after.Filling address obj .empty → after.Room more moreNames →
      Comes (fun fuel => parseMembers engine (parseValue engine fuel) (.ptr address) fuel after
          (entriesText true ((key, value) :: entries) ++ 125 :: rest))
        (AllEntries PlainString ((key, value) :: entries))
        (MadeEntries after (cells \ {address}) address obj.proto ((key, value) :: entries) rest
          bytes names)) :
    Comes (fun fuel => parseValue engine fuel ctx ((object ((key, value) :: entries)).text ++ rest))
      (AllEntries PlainString ((key, value) :: entries))
      (Made ctx cells (.object ((key, value) :: entries)) rest bytes names) := by
  obtain ⟨place, obj, after, created, adds, roomAfter, isNew, inUse, filling, isProto⟩ :=
    Context.jsNewObject_of_room ready.wellFormed room
  have readyAfter := ready.without adds isNew inUse
  have unmarked : after.Unmarked (cells \ {place}) (protoSearchLimit - 1) obj.proto := by
    rcases isProto with isProto | isProto
    · rw [isProto, ← adds.proto]
      exact readyAfter.objects
    · exact .inl isProto
  have loop := members after place obj readyAfter unmarked filling roomAfter
  have isInput : (object ((key, value) :: entries)).text ++ rest =
      123 :: (entriesText true ((key, value) :: entries) ++ 125 :: rest) := by
    rw [text, List.append_assoc]
    rfl
  have finished : Comes (fun fuel => (parseMembers engine (parseValue engine fuel) (.ptr place)
      fuel after (entriesText true ((key, value) :: entries) ++ 125 :: rest)).andThen
        fun (rest, ctx) => some (some (.ptr place, rest, ctx)))
      (AllEntries PlainString ((key, value) :: entries) ∧ True)
      (Made ctx cells (.object ((key, value) :: entries)) rest bytes names) :=
    loop.andThen (fun _ (read : Bytes × Context) => some (some (JSValue.ptr place, read)))
      fun (left, final) made =>
        .of_value trivial (JSValue.ptr place, left, final) (fun _ => rfl)
          (.of_entries ready adds isNew isProto made)
  refine .of_succ ((finished.imp (and_true _ ▸ Iff.rfl) fun _ good => good).congr fun fuel => ?_)
  rw [isInput, entriesText_cons]
  exact parseValue_object_open fuel created _

/-- The loop goes on after an entry that was read. -/
theorem parseMembers_cons_comes {place : ℕ} {obj : HeapObject} {map : OrderedMap Bytes JSValue}
    {done entries : List (Bytes × Json)} {key : Bytes} {item : Json} {rest : Bytes} (more : ℕ)
    {itemBytes itemNames : ℕ} (ready : Ready engine ctx cells) (elsewhere : place ∉ cells)
    (filling : ctx.Filling place obj map)
    (unmarked : ctx.Unmarked cells (protoSearchLimit - 1) obj.proto)
    (represents : ctx.RepresentsEntries cells map.entries done)
    (readable : ReadableKey key) (isNew : map.get key = none)
    (noSetter : isAccessorName key = false → asBytes "__set__" ++ key ∉ map.keys)
    (first : Comes (fun fuel => parseValue engine fuel ctx
        (item.text ++ (entriesText false entries ++ 125 :: rest))) (item.All PlainString)
      (Made ctx cells item (entriesText false entries ++ 125 :: rest)
        (2 * key.length + 70 + itemBytes) (2 + itemNames)))
    (others : ∀ next nextEntries, entries = next :: nextEntries → ∀ after obj' val,
      Ready engine after cells → after.Filling place obj' (map.set key val) →
      obj'.proto = obj.proto → after.Unmarked cells (protoSearchLimit - 1) obj'.proto →
      after.RepresentsEntries cells (map.set key val).entries (done ++ [(key, item)]) →
      after.Room itemBytes itemNames →
      Comes (fun fuel => parseMembers engine (parseValue engine (fuel + (more + 1))) (.ptr place)
          fuel after (entriesText true entries ++ 125 :: rest)) (AllEntries PlainString entries)
        (MadeEntries after cells place obj.proto (done ++ [(key, item)] ++ entries) rest bytes
          names))
    (last : entries = [] → bytes = itemBytes ∧ names = itemNames) :
    Comes (fun fuel => parseMembers engine (parseValue engine (fuel + more)) (.ptr place) fuel ctx
        (entriesText true ((key, item) :: entries) ++ 125 :: rest))
      (AllEntries PlainString ((key, item) :: entries))
      (MadeEntries ctx cells place obj.proto (done ++ (key, item) :: entries) rest bytes names) := by
  obtain ⟨plain, proper, isText⟩ := readable
  refine .of_succ (.congr ((first.add (more + 1)).andThen
    (fun fuel => afterMember engine (parseValue engine (fuel + (more + 1))) (.ptr place) key fuel)
    fun (val, left, middle) made => ?_) fun fuel => ?_)
  rotate_left
  · rw [entriesText_cons, parseMembers_key engine _ _ _ _ plain isText, Nat.add_assoc,
      Nat.add_comm 1]
  obtain ⟨isLeft, adds, room, isTree⟩ := made
  have readyMiddle := ready.adds adds
  obtain ⟨propKey, after, isSet, edits, roomAfter, filled⟩ :=
    Context.jsSetPropertyStr_of_room engine readyMiddle.wellFormed
      (filling.mono ready.wellFormed adds.changes)
      (unmarked.mono ready.wellFormed adds.changes nowhere) noSetter proper isText isNew val room
  have elsewhere' : ∀ address ∈ cells, some place ≠ some address := by
    rintro address isCell ⟨⟩
    exact elsewhere isCell
  have represented : after.RepresentsEntries cells (map.set key val).entries
      (done ++ [(key, item)]) := by
    rw [OrderedMap.entries_set_of_absent isNew]
    exact ((represents.mono ready.wellFormed adds.changes nowhere subset_rfl).append isTree).mono
      readyMiddle.wellFormed edits.changes elsewhere' subset_rfl
  have editsAfter := edits.after adds
  rw [isLeft]
  cases entries with
  | nil =>
      obtain ⟨rfl, rfl⟩ := last rfl
      refine .of_value trivial (rest, after) (fun fuel => ?_)
        ⟨rfl, editsAfter, roomAfter, _, _, filled, rfl, represented⟩
      exact afterMember_close engine _ _ isSet isTree.ne_exception rest
  | cons next nextEntries =>
      have loop := others next nextEntries rfl after _ val (readyMiddle.edits edits elsewhere)
        filled rfl ((unmarked.mono ready.wellFormed adds.changes nowhere).mono
          readyMiddle.wellFormed edits.changes elsewhere') represented roomAfter
      have better : ∀ result, MadeEntries after cells place obj.proto
          (done ++ [(key, item)] ++ next :: nextEntries) rest bytes names result →
          MadeEntries ctx cells place obj.proto (done ++ (key, item) :: next :: nextEntries) rest
            bytes names result := by
        rintro ⟨left, final⟩ made
        obtain ⟨isRest, editsFinal, roomFinal, obj', map', isFilled, isProto, isObject⟩ := made
        refine ⟨isRest, ⟨editsAfter.changes.trans editsFinal.changes,
          editsFinal.proto.trans editsAfter.proto⟩, roomFinal, obj', map', isFilled, isProto, ?_⟩
        rw [List.append_assoc] at isObject
        exact isObject
      refine (loop.imp Iff.rfl better).congr fun fuel => ?_
      exact afterMember_comma engine _ _ isSet isTree.ne_exception _

end Reading

section Trees

variable (engine : Engine)

theorem plain_array (items : List Json) :
    AllItems PlainString items ↔ (array items).All PlainString :=
  ⟨fun plain => ⟨trivial, plain⟩, And.right⟩

theorem plain_object (entries : List (Bytes × Json)) :
    AllEntries PlainString entries ↔ (object entries).All PlainString :=
  ⟨fun plain => ⟨trivial, plain⟩, And.right⟩

theorem follows_items {rest : Bytes} : (items : List Json) →
    Follows (itemsText false items ++ 93 :: rest)
  | [], byte, isHead => by
      cases isHead
      exact .inr (.inl rfl)
  | _ :: _, byte, isHead => by
      cases isHead
      exact .inl rfl

theorem follows_entries {rest : Bytes} : (entries : List (Bytes × Json)) →
    Follows (entriesText false entries ++ 125 :: rest)
  | [], byte, isHead => by
      cases isHead
      exact .inr (.inr rfl)
  | _ :: _, byte, isHead => by
      cases isHead
      exact .inl rfl

mutual

/-- The text of a readable tree is read back if its strings are plain, and
rejected if not. -/
theorem parseValue_comes : (tree : Json) → ∀ {ctx : Context} {cells : Set ℕ} {rest : Bytes}
    {bytes names : ℕ}, tree.All ReadableNode → Ready engine ctx cells → Follows rest →
    ctx.Room (readBytes tree + bytes) (readNames tree + names) →
    Comes (fun fuel => parseValue engine fuel ctx (tree.text ++ rest)) (tree.All PlainString)
      (Made ctx cells tree rest bytes names)
  | .null, ctx, cells, rest, bytes, names, _, _, _, room =>
      .of_succ (.of_value trivial (.null, rest, ctx)
        (fun fuel => parseValue_literal engine fuel ctx (.inl ⟨rfl, rfl⟩))
        ⟨rfl, .refl ctx, room.mono (Nat.le_add_left _ _) (Nat.le_add_left _ _), rfl⟩)
  | .bool truth, ctx, cells, rest, bytes, names, _, _, _, room => by
      refine .of_succ (.of_value trivial (.bool truth, rest, ctx) (fun fuel => ?_)
        ⟨rfl, .refl ctx, room.mono (Nat.le_add_left _ _) (Nat.le_add_left _ _), rfl⟩)
      cases truth with
      | true => exact parseValue_literal engine fuel ctx (.inr (.inl ⟨rfl, rfl⟩))
      | false => exact parseValue_literal engine fuel ctx (.inr (.inr ⟨rfl, rfl⟩))
  | .int n, ctx, cells, rest, bytes, names, _, _, follows, room =>
      .of_succ (.of_value trivial (.int n, rest, ctx)
        (fun fuel => parseValue_int engine fuel ctx n follows)
        ⟨rfl, .refl ctx, room.mono (Nat.le_add_left _ _) (Nat.le_add_left _ _), rfl⟩)
  | .string text, ctx, cells, rest, bytes, names, readable, ready, _, room =>
      parseValue_string_comes readable ready rest
        (room.mono le_rfl (Nat.le_add_left _ _))
  | .array [], ctx, cells, rest, bytes, names, _, ready, _, room =>
      (parseValue_array_nil_comes rest ready (room.mono le_rfl (Nat.le_add_left _ _))).imp
        (plain_array []) fun _ made => made
  | .array (item :: items), ctx, cells, rest, bytes, names, readable, ready, _, room => by
      have isShort : (item :: items).length < 2 ^ 31 := readable.1
      rw [readBytes, readNames, Nat.add_assoc] at room
      refine (parseValue_array_comes ready room fun after address obj readyAfter growing noCredit
        roomAfter => ?_).imp (plain_array _) fun _ made => made
      have nothing : after.RepresentsItems (cells \ {address}) [] [] := rfl
      exact parseElements_comes (item :: items) 0 nofun readable.2 readyAfter
        (fun isCell => isCell.2 rfl) growing nothing (by rw [List.length_nil]; omega)
        (by rw [noCredit]; exact roomAfter)
  | .object [], ctx, cells, rest, bytes, names, _, ready, _, room =>
      (parseValue_object_nil_comes rest ready (room.mono le_rfl (Nat.le_add_left _ _))).imp
        (plain_object []) fun _ made => made
  | .object ((key, value) :: entries), ctx, cells, rest, bytes, names, readable, ready, _,
      room => by
      rw [readBytes, readNames, Nat.add_assoc] at room
      refine (parseValue_object_comes ready room fun after address obj readyAfter unmarked filling
        roomAfter => ?_).imp (plain_object _) fun _ made => made
      have nothing : after.RepresentsEntries (cells \ {address}) [] [] := rfl
      obtain ⟨⟨distinct, readableKeys, -, -, noSetters⟩, readableValues⟩ := readable
      exact parseMembers_comes ((key, value) :: entries) 0 nofun distinct readableKeys
        readableValues readyAfter (fun isCell => isCell.2 rfl) filling
        (fun _ _ _ => nofun) noSetters unmarked
        nothing (fun _ _ => rfl) roomAfter

/-- The loop over the elements reads the texts of the remaining items. -/
theorem parseElements_comes : (items : List Json) → (more : ℕ) → items ≠ [] →
    ∀ {ctx : Context} {cells : Set ℕ} {place : ℕ} {obj : HeapObject} {values : List JSValue}
      {done : List Json} {rest : Bytes} {bytes names : ℕ},
    AllItems ReadableNode items → Ready engine ctx cells → place ∉ cells →
    ctx.Growing place obj values → ctx.RepresentsItems cells values done →
    values.length + items.length ≤ 2 ^ 31 →
    ctx.Room (itemsReadBytes items + Context.credit obj + bytes) (itemsReadNames items + names) →
    Comes (fun fuel => parseElements (parseValue engine (fuel + more)) (.ptr place) fuel ctx
        (itemsText true items ++ 93 :: rest)) (AllItems PlainString items)
      (MadeItems ctx cells place obj.proto (done ++ items) rest bytes names)
  | [], _, nonempty, _, _, _, _, _, _, _, _, _, _, _, _, _, _, _, _ => absurd rfl nonempty
  | item :: items, more, _, ctx, cells, place, obj, values, done, rest, bytes, names, readable,
      ready, elsewhere, growing, represents, isShort, room => by
      rw [List.length_cons] at isShort
      have roomItem : ctx.Room (readBytes item + (39 + Context.credit obj +
          (itemsReadBytes items + bytes))) (readNames item + (itemsReadNames items + names)) :=
        room.mono (by rw [itemsReadBytes]; omega) (by rw [itemsReadNames]; omega)
      refine parseElements_cons_comes more ready elsewhere growing represents (by omega)
        (parseValue_comes item readable.1 ready (follows_items items) roomItem) ?_ ?_
      · intro next nextItems isCons after obj' values' readyAfter growingAfter isProto isLength
          representsAfter roomAfter
        have roomItems : after.Room (itemsReadBytes items + Context.credit obj' + bytes)
            (itemsReadNames items + names) := roomAfter.mono (by omega) le_rfl
        rw [← isProto]
        exact parseElements_comes items (more + 1) (by rw [isCons]; nofun) readable.2
          readyAfter elsewhere growingAfter representsAfter (by omega) roomItems
      · rintro rfl
        exact ⟨(Nat.zero_add _).symm, (Nat.zero_add _).symm⟩

/-- The loop over the members reads the texts of the remaining entries. -/
theorem parseMembers_comes : (entries : List (Bytes × Json)) → (more : ℕ) → entries ≠ [] →
    ∀ {ctx : Context} {cells : Set ℕ} {place : ℕ} {obj : HeapObject}
      {map : OrderedMap Bytes JSValue} {done : List (Bytes × Json)} {rest : Bytes}
      {bytes names : ℕ},
    (entries.map Prod.fst).Nodup → (∀ entry ∈ entries, ReadableKey entry.1) →
    AllEntries ReadableNode entries → Ready engine ctx cells → place ∉ cells →
    ctx.Filling place obj map →
    (∀ name ∈ entries.map Prod.fst, isAccessorName name = false →
      asBytes "__set__" ++ name ∉ map.keys) →
    ((entries.map Prod.fst).Pairwise fun earlier later =>
      isAccessorName later = false → earlier ≠ asBytes "__set__" ++ later) →
    ctx.Unmarked cells (protoSearchLimit - 1) obj.proto →
    ctx.RepresentsEntries cells map.entries done →
    (∀ entry ∈ entries, map.get entry.1 = none) →
    ctx.Room (entriesReadBytes entries + bytes) (entriesReadNames entries + names) →
    Comes (fun fuel => parseMembers engine (parseValue engine (fuel + more)) (.ptr place) fuel ctx
        (entriesText true entries ++ 125 :: rest)) (AllEntries PlainString entries)
      (MadeEntries ctx cells place obj.proto (done ++ entries) rest bytes names)
  | [], _, nonempty, _, _, _, _, _, _, _, _, _, _, _, _, _, _, _, _, _, _, _, _, _ =>
      absurd rfl nonempty
  | (key, item) :: entries, more, _, ctx, cells, place, obj, map, done, rest, bytes, names,
      distinct, readableKeys, readable, ready, elsewhere, filling, noSetters, settersBehind,
      unmarked, represents, isNew, room => by
      rw [List.map_cons, List.nodup_cons] at distinct
      rw [List.map_cons, List.pairwise_cons] at settersBehind
      have roomItem : ctx.Room (readBytes item + (2 * key.length + 70 +
          (entriesReadBytes entries + bytes)))
          (readNames item + (2 + (entriesReadNames entries + names))) :=
        room.mono (by rw [entriesReadBytes]; omega) (by rw [entriesReadNames]; omega)
      have readableKey := readableKeys (key, item) List.mem_cons_self
      have isNewKey : map.get key = none := isNew (key, item) List.mem_cons_self
      refine parseMembers_cons_comes more ready elsewhere filling unmarked represents
        readableKey isNewKey (noSetters key List.mem_cons_self)
        (parseValue_comes item readable.1 ready (follows_entries entries) roomItem) ?_ ?_
      · intro next nextEntries isCons after obj' val readyAfter fillingAfter isProto unmarkedAfter
          representsAfter roomAfter
        have keys (name : Bytes) (isKey : name ∈ (map.set key val).keys) :
            name ∈ map.keys ∨ name = key := by
          rw [OrderedMap.keys, OrderedMap.entries_set_of_absent isNewKey, List.map_append,
            List.mem_append] at isKey
          exact isKey.imp id List.mem_singleton.mp
        rw [← isProto]
        exact parseMembers_comes entries (more + 1) (by rw [isCons]; nofun) distinct.2
          (fun entry isEntry => readableKeys entry (List.mem_cons_of_mem _ isEntry)) readable.2
          readyAfter elsewhere fillingAfter
          (fun name isKey notAccessor isSetter => by
            rcases keys _ isSetter with isOld | isSame
            · exact noSetters name (List.mem_cons_of_mem _ isKey) notAccessor isOld
            · exact settersBehind.1 name isKey notAccessor isSame.symm)
          settersBehind.2 unmarkedAfter representsAfter
          (fun entry isEntry => by
            rw [OrderedMap.get_eq_none_iff]
            intro isKey
            rcases keys entry.1 isKey with isOld | isSame
            · exact (OrderedMap.get_eq_none_iff map _).mp
                (isNew entry (List.mem_cons_of_mem _ isEntry)) isOld
            · exact distinct.1 (List.mem_map.mpr ⟨entry, isEntry, isSame⟩))
          roomAfter
      · rintro rfl
        exact ⟨(Nat.zero_add _).symm, (Nat.zero_add _).symm⟩

end

end Trees

end Json
end Script
end MuonJs
