import MuonJs.Script.JsonReading

/-!
# The JSON round trip

A value whose names are plain comes back from its text as a value of the same
tree exactly when its strings are plain: a control character other than a tab and
the line breaks is written into the text as it is, and the reader rejects it.
-/

namespace MuonJs
namespace Script

open Cache (Bytes F64 asBytes fromUtf8)
open Descent (Settles)

namespace Json

/-- The value is written as a text, which is read back in full as a value of the
same tree. -/
def RoundTrips (engine : Engine) (ctx : Context) (val : JSValue) (tree : Json) : Prop :=
  ∃ text written, Settles (fun fuel => jsonStringifyValue engine fuel ctx val)
      (some (some text, written)) ∧
    ∃ back after, Settles (fun fuel => parseJson engine fuel written text)
        (some (some (back, after))) ∧
      after.Represents Set.univ back tree

/-- The names of an object are plain. -/
def PlainKeys : Json → Prop
  | .object entries => ∀ entry ∈ entries, PlainKey entry.1
  | _ => True

mutual

/-- A tree that stands on the heap is readable if its names are plain. -/
theorem readable_of_represents {ctx : Context} {cells : Set ℕ} {val : JSValue} :
    (tree : Json) → ctx.Represents cells val tree → Plain tree → tree.All PlainKeys →
    tree.All ReadableNode
  | .null, _, _, _ => trivial
  | .bool _, _, _, _ => trivial
  | .int _, _, _, _ => trivial
  | .string _, ⟨_, _, _, _, isText⟩, _, _ => isText
  | .array items, ⟨_, _, _, _, _, _, _, represents⟩, plain, keys =>
      ⟨plain.1, readableItems_of_represents items represents plain.2 keys.2⟩
  | .object entries, ⟨_, _, map, _, _, holds, _, _, represents⟩, plain, keys => by
      refine ⟨⟨?_, fun entry isEntry => ⟨keys.1 entry isEntry, ?_⟩, plain.1⟩,
        readableEntries_of_represents entries represents plain.2 keys.2⟩
      · rw [← represents.keys]
        exact map.distinct
      · have isKey : entry.1 ∈ map.keys := by
          rw [OrderedMap.keys, represents.keys]
          exact List.mem_map_of_mem isEntry
        obtain ⟨key, isName⟩ := holds.exists_names isKey
        exact ⟨isName.proper, isName.isText⟩

theorem readableItems_of_represents {ctx : Context} {cells : Set ℕ} {values : List JSValue} :
    (items : List Json) → ctx.RepresentsItems cells values items → AllItems PlainNode items →
    AllItems PlainKeys items → AllItems ReadableNode items
  | [], _, _, _ => trivial
  | item :: items, ⟨_, _, _, isTree, others⟩, plain, keys =>
      ⟨readable_of_represents item isTree plain.1 keys.1,
        readableItems_of_represents items others plain.2 keys.2⟩

theorem readableEntries_of_represents {ctx : Context} {cells : Set ℕ}
    {values : List (Bytes × JSValue)} :
    (entries : List (Bytes × Json)) → ctx.RepresentsEntries cells values entries →
    AllEntries PlainNode entries → AllEntries PlainKeys entries →
    AllEntries ReadableNode entries
  | [], _, _, _ => trivial
  | (_, item) :: entries, ⟨_, _, _, isTree, others⟩, plain, keys =>
      ⟨readable_of_represents item isTree plain.1 keys.1,
        readableEntries_of_represents entries others plain.2 keys.2⟩

end

/-! ## What is kept -/

/-- The tree is no object that is marked as a closure. -/
def Unclosed : Json → Prop
  | .object entries => isClosure entries = false
  | _ => True

theorem length_keptItems (items : List Json) : (keptItems items).length = items.length := by
  induction items with
  | nil => rfl
  | cons item items ih => rw [keptItems, List.length_cons, List.length_cons, ih]

theorem keys_keptEntries (entries : List (Bytes × Json)) :
    List.Sublist ((keptEntries entries).map Prod.fst) (entries.map Prod.fst) := by
  induction entries with
  | nil => exact .slnil
  | cons entry entries ih =>
      rw [keptEntries]
      cases kept entry.2 with
      | none => exact ih.cons _
      | some value => exact ih.cons_cons _

theorem length_keptEntries_le (entries : List (Bytes × Json)) :
    (keptEntries entries).length ≤ entries.length := by
  have shorter := (keys_keptEntries entries).length_le
  rwa [List.length_map, List.length_map] at shorter

/-- Among fewer names no accessor is found either. -/
theorem Accessorless.sublist {names names' : List Bytes} (accessorless : Accessorless names)
    (fewer : List.Sublist names' names) : Accessorless names' :=
  ⟨fun isGetter => accessorless.1 (fewer.subset isGetter),
    fun name isName notAccessor isGetter =>
      accessorless.2.1 name (fewer.subset isName) notAccessor (fewer.subset isGetter),
    accessorless.2.2.sublist fewer⟩

mutual

/-- What is kept of a readable tree is readable, and takes no more to read. -/
theorem kept_readable : (tree : Json) → tree.All ReadableNode → ∀ {rest : Json},
    kept tree = some rest →
    rest.All ReadableNode ∧ readBytes rest ≤ readBytes tree ∧ readNames rest ≤ readNames tree
  | .null, readable, rest, isKept => by
      cases isKept
      exact ⟨readable, le_rfl, le_rfl⟩
  | .bool truth, readable, rest, isKept => by
      cases isKept
      exact ⟨readable, le_rfl, le_rfl⟩
  | .int n, readable, rest, isKept => by
      cases isKept
      exact ⟨readable, le_rfl, le_rfl⟩
  | .string text, readable, rest, isKept => by
      cases isKept
      exact ⟨readable, le_rfl, le_rfl⟩
  | .array items, readable, rest, isKept => by
      cases isKept
      obtain ⟨readableItems, fewerBytes, fewerNames⟩ := keptItems_readable items readable.2
      have isShort : items.length < 2 ^ 31 := readable.1
      refine ⟨⟨?_, readableItems⟩, ?_, fewerNames⟩
      · change (keptItems items).length < 2 ^ 31
        rw [length_keptItems]
        exact isShort
      · rw [readBytes, readBytes]
        omega
  | .object entries, readable, rest, isKept => by
      rw [kept] at isKept
      split at isKept
      · cases isKept
      · cases isKept
        obtain ⟨readableEntries, fewerBytes, fewerNames⟩ := keptEntries_readable entries readable.2
        obtain ⟨distinct, keys, accessorless⟩ := readable.1
        have fewer := keys_keptEntries entries
        refine ⟨⟨⟨distinct.sublist fewer, fun entry isEntry => ?_, accessorless.sublist fewer⟩,
          readableEntries⟩, ?_, fewerNames⟩
        · obtain ⟨other, isOther, same⟩ :=
            List.mem_map.mp (fewer.subset (List.mem_map_of_mem isEntry))
          rw [← same]
          exact keys other isOther
        · rw [readBytes, readBytes]
          omega

theorem keptItems_readable : (items : List Json) → AllItems ReadableNode items →
    AllItems ReadableNode (keptItems items) ∧
      itemsReadBytes (keptItems items) ≤ itemsReadBytes items ∧
      itemsReadNames (keptItems items) ≤ itemsReadNames items
  | [], _ => ⟨trivial, le_rfl, le_rfl⟩
  | item :: items, readable => by
      obtain ⟨readableItems, fewerBytes, fewerNames⟩ := keptItems_readable items readable.2
      rw [keptItems, itemsReadBytes, itemsReadBytes, itemsReadNames, itemsReadNames]
      cases isKept : kept item with
      | none =>
          refine ⟨⟨trivial, readableItems⟩, ?_, ?_⟩
          · rw [Option.getD_none, readBytes]
            · omega
            all_goals nofun
          · rw [Option.getD_none, readNames]
            · omega
            all_goals nofun
      | some rest =>
          obtain ⟨readableItem, lessBytes, lessNames⟩ := kept_readable item readable.1 isKept
          rw [Option.getD_some]
          exact ⟨⟨readableItem, readableItems⟩, by omega, by omega⟩

theorem keptEntries_readable : (entries : List (Bytes × Json)) →
    AllEntries ReadableNode entries →
    AllEntries ReadableNode (keptEntries entries) ∧
      entriesReadBytes (keptEntries entries) ≤ entriesReadBytes entries ∧
      entriesReadNames (keptEntries entries) ≤ entriesReadNames entries
  | [], _ => ⟨trivial, le_rfl, le_rfl⟩
  | (key, value) :: entries, readable => by
      obtain ⟨readableEntries, fewerBytes, fewerNames⟩ := keptEntries_readable entries readable.2
      rw [keptEntries, entriesReadBytes, entriesReadNames]
      cases isKept : kept value with
      | none => exact ⟨readableEntries, by dsimp only; omega, by dsimp only; omega⟩
      | some rest =>
          obtain ⟨readableValue, lessBytes, lessNames⟩ := kept_readable value readable.1 isKept
          dsimp only
          rw [entriesReadBytes, entriesReadNames]
          exact ⟨⟨readableValue, readableEntries⟩, by omega, by omega⟩

end

mutual

/-- A tree without closures is kept as it is. -/
theorem kept_of_unclosed : (tree : Json) → tree.All Unclosed → kept tree = some tree
  | .null, _ => rfl
  | .bool _, _ => rfl
  | .int _, _ => rfl
  | .string _, _ => rfl
  | .array items, unclosed => by
      rw [kept, keptItems_of_unclosed items unclosed.2]
  | .object entries, unclosed => by
      have notClosure : isClosure entries = false := unclosed.1
      rw [kept, notClosure, if_neg Bool.false_ne_true, keptEntries_of_unclosed entries unclosed.2]

theorem keptItems_of_unclosed : (items : List Json) → AllItems Unclosed items →
    keptItems items = items
  | [], _ => rfl
  | item :: items, unclosed => by
      rw [keptItems, kept_of_unclosed item unclosed.1, keptItems_of_unclosed items unclosed.2]
      rfl

theorem keptEntries_of_unclosed : (entries : List (Bytes × Json)) →
    AllEntries Unclosed entries → keptEntries entries = entries
  | [], _ => rfl
  | (key, value) :: entries, unclosed => by
      rw [keptEntries, kept_of_unclosed value unclosed.1,
        keptEntries_of_unclosed entries unclosed.2]

end

mutual

/-- A tree that is kept as it is has no closures. -/
theorem unclosed_of_kept : (tree : Json) → kept tree = some tree → tree.All Unclosed
  | .null, _ => trivial
  | .bool _, _ => trivial
  | .int _, _ => trivial
  | .string _, _ => trivial
  | .array items, isKept => by
      rw [kept, Option.some.injEq, Json.array.injEq] at isKept
      exact ⟨trivial, unclosedItems_of_kept items isKept⟩
  | .object entries, isKept => by
      rw [kept] at isKept
      split at isKept
      · cases isKept
      · rename_i notClosure
        rw [Option.some.injEq, Json.object.injEq] at isKept
        exact ⟨Bool.eq_false_iff.mpr notClosure, unclosedEntries_of_kept entries isKept⟩

theorem unclosedItems_of_kept : (items : List Json) → keptItems items = items →
    AllItems Unclosed items
  | [], _ => trivial
  | item :: items, isKept => by
      rw [keptItems] at isKept
      obtain ⟨isItem, areItems⟩ := List.cons.inj isKept
      refine ⟨unclosed_of_kept item ?_, unclosedItems_of_kept items areItems⟩
      cases isFound : kept item with
      | none =>
          rw [isFound] at isItem
          cases show Json.null = item from isItem
          cases isFound
      | some rest =>
          rw [isFound] at isItem
          exact congrArg some isItem

theorem unclosedEntries_of_kept : (entries : List (Bytes × Json)) → keptEntries entries = entries →
    AllEntries Unclosed entries
  | [], _ => trivial
  | (key, value) :: entries, isKept => by
      rw [keptEntries] at isKept
      cases isFound : kept value with
      | none =>
          rw [isFound] at isKept
          have shorter := length_keptEntries_le entries
          rw [show keptEntries entries = (key, value) :: entries from isKept,
            List.length_cons] at shorter
          omega
      | some rest =>
          rw [isFound] at isKept
          obtain ⟨isEntry, areEntries⟩ := List.cons.inj isKept
          refine ⟨unclosed_of_kept value ?_, unclosedEntries_of_kept entries areEntries⟩
          rw [isFound, ← (Prod.mk.inj isEntry).2]

end

/-! ## The tree of a value -/

section Unique

variable {ctx : Context} {cells : Set ℕ}

/-- What stands for a string is a text. -/
theorem exists_string {val : JSValue} {address : ℕ} {bytes : Bytes} (isPtr : val = .ptr address)
    (stored : ctx.heap address = some (.string bytes)) {tree : Json}
    (represents : ctx.Represents cells val tree) : tree = .string bytes := by
  subst isPtr
  cases tree with
  | null => cases represents
  | bool truth => cases represents
  | int n => cases represents
  | string other =>
      obtain ⟨address', ⟨⟩, -, stored', -⟩ := represents
      cases stored.symm.trans stored'
      rfl
  | array items =>
      obtain ⟨address', obj, values, ⟨⟩, -, holds, -⟩ := represents
      cases stored.symm.trans holds.stored
  | object entries =>
      obtain ⟨address', obj, map, ⟨⟩, -, holds, -⟩ := represents
      cases stored.symm.trans holds.stored

/-- What stands for an array is one of the values that it holds. -/
theorem exists_array {val : JSValue} {address : ℕ} {obj : HeapObject} {values : List JSValue}
    (isPtr : val = .ptr address) (holds : ctx.HoldsItems address obj values) {tree : Json}
    (represents : ctx.Represents cells val tree) :
    ∃ items, tree = .array items ∧ ctx.RepresentsItems cells values items := by
  subst isPtr
  cases tree with
  | null => cases represents
  | bool truth => cases represents
  | int n => cases represents
  | string bytes =>
      obtain ⟨address', ⟨⟩, -, stored, -⟩ := represents
      cases stored.symm.trans holds.stored
  | array items =>
      obtain ⟨address', obj', values', ⟨⟩, -, holds', -, elements⟩ := represents
      cases holds.stored.symm.trans holds'.stored
      have sameLength : values.length = values'.length := holds.len.symm.trans holds'.len
      have same : values = values' := by
        rw [← holds.items, ← holds'.items, sameLength]
      rw [same]
      exact ⟨items, rfl, elements⟩
  | object entries =>
      obtain ⟨address', obj', map, ⟨⟩, -, holds', -⟩ := represents
      cases holds.stored.symm.trans holds'.stored
      cases holds.isArray.symm.trans holds'.plain

/-- What stands for an object has the entries that it holds. -/
theorem exists_object {val : JSValue} {address : ℕ} {obj : HeapObject}
    {map : OrderedMap Bytes JSValue} (isPtr : val = .ptr address)
    (holds : ctx.Holds address obj map) {tree : Json}
    (represents : ctx.Represents cells val tree) :
    ∃ entries, tree = .object entries ∧ ctx.RepresentsEntries cells map.entries entries := by
  subst isPtr
  cases tree with
  | null => cases represents
  | bool truth => cases represents
  | int n => cases represents
  | string bytes =>
      obtain ⟨address', ⟨⟩, -, stored, -⟩ := represents
      cases stored.symm.trans holds.stored
  | array items =>
      obtain ⟨address', obj', values', ⟨⟩, -, holds', -⟩ := represents
      cases holds.stored.symm.trans holds'.stored
      cases holds'.isArray.symm.trans holds.plain
  | object entries =>
      obtain ⟨address', obj', map', ⟨⟩, -, holds', -, -, members⟩ := represents
      cases holds.stored.symm.trans holds'.stored
      have same : map.entries = map'.entries := Context.stands_unique holds.stands holds'.stands
      rw [same]
      exact ⟨entries, rfl, members⟩

mutual

/-- A value stands for one tree. -/
theorem represents_unique {val : JSValue} : (tree : Json) → ∀ {other : Json},
    ctx.Represents cells val tree → ctx.Represents cells val other → other = tree
  | .null, other, represents, again => by
      cases show val = .null from represents
      cases other with
      | null => rfl
      | bool truth => cases again
      | int n => cases again
      | string bytes => obtain ⟨_, ⟨⟩, -⟩ := again
      | array items => obtain ⟨_, _, _, ⟨⟩, -⟩ := again
      | object entries => obtain ⟨_, _, _, ⟨⟩, -⟩ := again
  | .bool truth, other, represents, again => by
      cases show val = .bool truth from represents
      cases other with
      | null => cases again
      | bool truth' =>
          cases again
          rfl
      | int n => cases again
      | string bytes => obtain ⟨_, ⟨⟩, -⟩ := again
      | array items => obtain ⟨_, _, _, ⟨⟩, -⟩ := again
      | object entries => obtain ⟨_, _, _, ⟨⟩, -⟩ := again
  | .int n, other, represents, again => by
      cases show val = .int n from represents
      cases other with
      | null => cases again
      | bool truth => cases again
      | int n' =>
          cases again
          rfl
      | string bytes => obtain ⟨_, ⟨⟩, -⟩ := again
      | array items => obtain ⟨_, _, _, ⟨⟩, -⟩ := again
      | object entries => obtain ⟨_, _, _, ⟨⟩, -⟩ := again
  | .string _, _, ⟨_, isPtr, _, stored, _⟩, again => exists_string isPtr stored again
  | .array items, other, ⟨_, _, _, isPtr, _, holds, _, elements⟩, again => by
      obtain ⟨items', rfl, elements'⟩ := exists_array isPtr holds again
      rw [representsItems_unique items elements elements']
  | .object entries, other, ⟨_, _, _, isPtr, _, holds, _, _, members⟩, again => by
      obtain ⟨entries', rfl, members'⟩ := exists_object isPtr holds again
      rw [representsEntries_unique entries members members']

theorem representsItems_unique {values : List JSValue} : (items : List Json) →
    ∀ {others : List Json}, ctx.RepresentsItems cells values items →
    ctx.RepresentsItems cells values others → others = items
  | [], others, represents, again => by
      cases show values = [] from represents
      cases others with
      | nil => rfl
      | cons item items => obtain ⟨_, _, ⟨⟩, -⟩ := again
  | item :: items, others, ⟨val, rest, isCons, isTree, elements⟩, again => by
      subst isCons
      cases others with
      | nil => cases again
      | cons item' items' =>
          obtain ⟨_, _, ⟨⟩, isTree', elements'⟩ := again
          rw [represents_unique item isTree isTree',
            representsItems_unique items elements elements']

theorem representsEntries_unique {values : List (Bytes × JSValue)} :
    (entries : List (Bytes × Json)) → ∀ {others : List (Bytes × Json)},
    ctx.RepresentsEntries cells values entries →
    ctx.RepresentsEntries cells values others → others = entries
  | [], others, represents, again => by
      cases show values = [] from represents
      cases others with
      | nil => rfl
      | cons entry entries => obtain ⟨_, _, ⟨⟩, -⟩ := again
  | (key, item) :: entries, others, ⟨val, rest, isCons, isTree, members⟩, again => by
      subst isCons
      cases others with
      | nil => cases again
      | cons entry' entries' =>
          obtain ⟨_, _, isSame, isTree', members'⟩ := again
          obtain ⟨isEntry, rfl⟩ := List.cons.inj isSame
          obtain ⟨isKey, rfl⟩ := Prod.mk.inj isEntry
          rw [representsEntries_unique entries members members',
            show entry' = (key, item) from
              Prod.ext isKey.symm (represents_unique item isTree isTree')]

end

end Unique

/-! ## The round trip -/

section RoundTrip

variable {engine : Engine} {ctx : Context} {val : JSValue} {tree : Json}
  (ready : Ready engine ctx Set.univ) (represents : ctx.Represents Set.univ val tree)
  (plain : tree.Plain) (keys : tree.All PlainKeys)
  (room : ctx.Room (writeBytes tree + readBytes tree) (writeNames tree + readNames tree))

include ready represents plain keys room

/-- What is kept of the tree is read back in full, or rejected. -/
theorem roundTrip_comes :
    ∃ written, Settles (fun fuel => jsonStringifyValue engine fuel ctx val)
        (some (keptText tree false, written)) ∧
      ∀ rest, kept tree = some rest →
        Comes (fun fuel => parseJson engine fuel written rest.text) (rest.All PlainString)
          fun (back, after) => after.Represents Set.univ back rest := by
  obtain ⟨written, writes, adds, roomWritten⟩ :=
    stringify_ends engine tree plain ready.wellFormed represents room false
  refine ⟨written, writes, fun rest isKept => ?_⟩
  have readable := readable_of_represents tree represents plain keys
  obtain ⟨readableRest, fewerBytes, fewerNames⟩ := kept_readable tree readable isKept
  have reads : Comes (fun fuel => parseValue engine fuel written (rest.text ++ []))
      (rest.All PlainString) (Made written Set.univ rest [] 0 0) :=
    parseValue_comes engine rest readableRest (ready.adds adds) nofun
      (roomWritten.mono fewerBytes fewerNames)
  rw [List.append_nil] at reads
  have parses : Comes (fun fuel => parseJson engine fuel written rest.text)
      (rest.All PlainString ∧ True) fun (back, after) => after.Represents Set.univ back rest := by
    refine reads.andThen (fun _ read =>
      some (if (skipWs read.2.1).isEmpty then some (read.1, read.2.2) else none)) ?_
    rintro ⟨back, left, after⟩ ⟨isRest, -, -, isTree⟩
    rw [isRest]
    exact .of_value trivial (back, after) (fun _ => rfl) isTree
  exact parses.imp (and_true _ ▸ Iff.rfl) fun _ isTree => isTree

/-- What comes back has no closures and plain strings. -/
theorem RoundTrips.isPlain (trips : RoundTrips engine ctx val tree) :
    tree.All Unclosed ∧ tree.All PlainString := by
  obtain ⟨written, writes, parses⟩ := roundTrip_comes ready represents plain keys room
  obtain ⟨text, written', writes', back, after, parses', isTree⟩ := trips
  have same := writes.unique writes'
  rw [keptText] at same
  cases isKept : kept tree with
  | none =>
      rw [isKept] at same
      cases same
  | some rest =>
      rw [isKept] at same
      cases same
      rcases parses rest isKept with ⟨isPlain, ⟨back', after'⟩, settles, isRest⟩ | ⟨-, rejects⟩
      · cases settles.unique parses'
        have isSame := represents_unique tree isTree isRest
        rw [isSame] at isKept isPlain
        exact ⟨unclosed_of_kept tree isKept, isPlain⟩
      · cases rejects.unique parses'

end RoundTrip

/-- For a value whose names are plain, without accessors that are found and arrays beyond
`i32`, the round trip succeeds exactly when no object is marked as a closure and all
strings are plain. -/
theorem readsBack_iff {engine : Engine} {ctx : Context} {val : JSValue} {tree : Json}
    (ready : Ready engine ctx Set.univ) (represents : ctx.Represents Set.univ val tree)
    (plain : tree.Plain) (keys : tree.All PlainKeys)
    (room : ctx.Room (writeBytes tree + readBytes tree) (writeNames tree + readNames tree)) :
    RoundTrips engine ctx val tree ↔ tree.All Unclosed ∧ tree.All PlainString := by
  constructor
  · exact RoundTrips.isPlain ready represents plain keys room
  · rintro ⟨unclosed, isPlain⟩
    obtain ⟨written, writes, parses⟩ := roundTrip_comes ready represents plain keys room
    have isKept := kept_of_unclosed tree unclosed
    rw [keptText, isKept] at writes
    rcases parses tree isKept with ⟨-, ⟨back, after⟩, settles, isTree⟩ | ⟨notPlain, -⟩
    · exact ⟨_, written, writes, back, after, settles, isTree⟩
    · exact absurd isPlain notPlain

/-! ## One string -/

/-- A context with one string, and an engine without closures. -/
def oneString (bytes : Bytes) : Context :=
  { Context.new 4096 with
    mem := ⟨4096, 64⟩
    heap := Function.update (fun _ => none) 0 (some (.string bytes)) }

@[inherit_doc oneString]
def plainEngine : Engine where
  callClosureWithThis := fun ctx _ _ _ => (none, ctx)
  display := fun _ => []
  arrays := ⟨.null, .undefined, .undefined⟩

theorem ready_oneString (bytes : Bytes) : Ready plainEngine (oneString bytes) Set.univ where
  wellFormed := by
    refine ⟨AtomTable.wellFormed_new, fun address isFree => ?_, fun _ _ => rfl⟩
    have notZero : address ≠ 0 := by
      rintro rfl
      exact absurd isFree (Nat.not_succ_le_zero 63)
    change Function.update (fun _ => none) 0 (some (Cell.string bytes)) address = none
    rw [Function.update_of_ne notZero]
  fresh := fun _ _ => trivial
  objects := .inr (.inl rfl)
  isSet := nofun
  arrays := .inl rfl

theorem represents_oneString {bytes : Bytes} (isText : (fromUtf8 bytes).isSome) :
    (oneString bytes).Represents Set.univ (.ptr 0) (.string bytes) := by
  refine ⟨0, rfl, trivial, ?_, isText⟩
  change Function.update (fun _ => none) 0 (some (Cell.string bytes)) 0 = _
  rw [Function.update_self]

/-- `{k: 1, __set__k: 2}`: a setter behind the name that it marks. -/
def setterBehind : Json := .object [(asBytes "k", .int 1), (asBytes "__set__k", .int 2)]

theorem plainKeys_setterBehind : setterBehind.All PlainKeys := by
  refine ⟨?_, trivial, trivial, trivial⟩
  unfold PlainKeys PlainKey
  decide +kernel

theorem accessorless_setterBehind : Accessorless [asBytes "k", asBytes "__set__k"] := by
  unfold Accessorless
  decide +kernel

theorem readable_setterBehind : setterBehind.All ReadableNode := by
  refine ⟨⟨by decide +kernel, fun entry isEntry => ⟨plainKeys_setterBehind.1 entry isEntry, ?_⟩,
    accessorless_setterBehind⟩, trivial, trivial, trivial⟩
  have isText : (fromUtf8 entry.1).isSome := by
    rcases List.mem_pair.mp isEntry with rfl | rfl <;> decide +kernel
  have notIndex : Context.parseIndex entry.1 = none := by
    rcases List.mem_pair.mp isEntry with rfl | rfl <;> decide +kernel
  refine ⟨?_, isText⟩
  rw [Context.ProperName, notIndex]
  exact isText

/-- The object, as the reader makes it, comes back from its text. -/
theorem readsBack_iff_setterBehind :
    ∃ ctx val, ctx.Represents Set.univ val setterBehind ∧
      RoundTrips plainEngine ctx val setterBehind := by
  have ready := ready_oneString []
  have isPlain : setterBehind.All PlainString := ⟨trivial, trivial, trivial, trivial⟩
  have reads : Comes
      (fun fuel => parseValue plainEngine fuel (oneString []) (setterBehind.text ++ []))
      (setterBehind.All PlainString) (Made (oneString []) Set.univ setterBehind [] 1000 10) :=
    parseValue_comes plainEngine setterBehind readable_setterBehind ready nofun
      ⟨by decide +kernel, by decide +kernel⟩
  rcases reads with ⟨-, ⟨val, left, ctx⟩, -, -, adds, room, represents⟩ | ⟨notPlain, -⟩
  · refine ⟨ctx, val, represents, (readsBack_iff (ready.adds adds) represents
      ⟨accessorless_setterBehind, trivial, trivial, trivial⟩ plainKeys_setterBehind
      (room.mono (by decide +kernel) (by decide +kernel))).mpr ⟨?_, isPlain⟩⟩
    exact ⟨(by decide +kernel : isClosure _ = false), trivial, trivial, trivial⟩
  · exact absurd isPlain notPlain

/-- A control character does not come back. -/
theorem not_always_readsBack :
    ¬∀ (engine : Engine) (ctx : Context) (val : JSValue) (tree : Json),
      Ready engine ctx Set.univ → ctx.Represents Set.univ val tree →
      ctx.Room (writeBytes tree + readBytes tree) (writeNames tree + readNames tree) →
      RoundTrips engine ctx val tree := by
  intro always
  have ready := ready_oneString [1]
  have represents : (oneString [1]).Represents Set.univ (.ptr 0) (.string [1]) :=
    represents_oneString (by decide)
  have room : (oneString [1]).Room (writeBytes (.string [1]) + readBytes (.string [1]))
      (writeNames (.string [1]) + readNames (.string [1])) := ⟨by decide, by decide⟩
  have trips := always plainEngine _ _ _ ready represents room
  have isPlain : PlainBytes [1] := (trips.isPlain ready represents trivial trivial room).2
  exact absurd (isPlain 1 List.mem_cons_self) (by unfold PlainByte; decide)

end Json
end Script
end MuonJs
