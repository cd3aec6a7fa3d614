import MuonJs.Lib.HashIndex
import MuonJs.Script.Strings

/-!
# Actions on the heap

The entry points of the context that act on an object, and what they leave
alone: an action changes the object it acts on, and allocates.
-/

namespace MuonJs
namespace Script

open Cache

/-! ## Actions and what they answer -/

/-- The entry points of the context that act on the properties of an object. -/
inductive PropertyOp
  | setStr (name : Bytes) (value : JSValue)
  | setAtomId (atom : UInt32) (value : JSValue)
  | setIndex (idx : UInt32) (value : JSValue)
  | getStr (name : Bytes)
  | getAtomId (atom : UInt32)
  | getIndex (idx : UInt32)
  | hasStr (name : Bytes)
  | deleteStr (name : Bytes)
  | deleteIndex (idx : UInt32)
  | keys

/-- What an entry point returns. -/
inductive Response
  | success (isDone : Bool)
  | value (found : Option JSValue)
  | present (isPresent : Bool)
  | names (keys : Option (List Bytes))
  | address (val : Option JSValue)

/-- Run an entry point on an object. -/
def PropertyOp.run (op : PropertyOp) (val : JSValue) (ctx : Context) : Response × Context :=
  match op with
  | .setStr name value =>
      let outcome := ctx.setPropertyStr val name value
      (.success outcome.1, outcome.2)
  | .setAtomId atom value =>
      let outcome := ctx.setPropertyAtomId val atom value
      (.success outcome.1, outcome.2)
  | .setIndex idx value =>
      let outcome := ctx.setPropertyIndex val idx value
      (.success outcome.1, outcome.2)
  | .getStr name =>
      let outcome := ctx.getPropertyStr val name
      (.value outcome.1, outcome.2)
  | .getAtomId atom => (.value (ctx.getPropertyAtomId val atom), ctx)
  | .getIndex idx => (.value (ctx.getPropertyIndex val idx), ctx)
  | .hasStr name =>
      let outcome := ctx.hasPropertyStr val name
      (.present outcome.1, outcome.2)
  | .deleteStr name =>
      let outcome := ctx.deletePropertyStr val name
      (.success outcome.1, outcome.2)
  | .deleteIndex idx =>
      let outcome := ctx.deletePropertyIndex val idx
      (.success outcome.1, outcome.2)
  | .keys => (.names (ctx.objectKeys val), ctx)

/-- What happens in a context: an entry point is used on a value, memory is
allocated for an object, a string or a number, or a prototype is set. -/
inductive Action
  | on (val : JSValue) (op : PropertyOp)
  | newObject (classId : UInt32)
  | newString (bytes : Bytes)
  | newFloat (value : Cache.F64)
  | intern (bytes : Bytes)
  | setObjectProto (val proto : JSValue)
  | setObjectProtoDefault (proto : JSValue)

/-- Do an action. -/
def Action.run (action : Action) (ctx : Context) : Response × Context :=
  match action with
  | .on val op => op.run val ctx
  | .newObject classId =>
      match ctx.newObject classId with
      | none => (.address none, ctx)
      | some (val, ctx) => (.address (some val), ctx)
  | .newString bytes =>
      match ctx.allocString bytes with
      | none => (.address none, ctx)
      | some (address, ctx) => (.address (some (.ptr address)), ctx)
  | .newFloat value =>
      match ctx.allocFloat value with
      | none => (.address none, ctx)
      | some (address, ctx) => (.address (some (.ptr address)), ctx)
  | .intern bytes =>
      let outcome := ctx.internString bytes
      (.success outcome.1.isSome, outcome.2)
  | .setObjectProto val proto =>
      let outcome := ctx.setObjectProto val proto
      (.success outcome.1, outcome.2)
  | .setObjectProtoDefault proto => (.success true, ctx.setObjectProtoDefault proto)

/-- The context after actions. -/
def Context.after (ctx : Context) (actions : List Action) : Context :=
  actions.foldl (fun ctx action => (action.run ctx).2) ctx

/-! ## Keys and names -/

/-- Atoms are packed below `2 ^ 32` and indices above. -/
theorem PropKey.toNat_mapKey (key : PropKey) :
    key.mapKey.toNat =
      (match key.kind with | .atom => 0 | .index => 2 ^ 32) + key.key.toNat := by
  obtain ⟨kind, key⟩ := key
  cases kind with
  | atom => exact (UInt32.toNat_toUInt64 key).trans (Nat.zero_add _).symm
  | index =>
      have merged := Nat.two_pow_add_eq_or_of_lt key.toNat_lt 1
      rw [mapKey, UInt64.toNat_or, UInt32.toNat_toUInt64]
      exact merged.symm

theorem PropKey.mapKey_injective : Function.Injective PropKey.mapKey := by
  rintro ⟨kind, key⟩ ⟨kind', key'⟩ same
  have sameNat := congrArg UInt64.toNat same
  rw [toNat_mapKey, toNat_mapKey] at sameNat
  have low := key.toNat_lt
  have low' := key'.toNat_lt
  cases kind <;> cases kind' <;> dsimp only at sameNat
  · rw [UInt32.toNat_inj.mp (by omega : key.toNat = key'.toNat)]
  · omega
  · omega
  · rw [UInt32.toNat_inj.mp (by omega : key.toNat = key'.toNat)]

/-- Digits are read as an index when their number is in the range of `u32`. -/
theorem parseIndexFrom_digits
    {value total : ℕ} {digits : Bytes}
    (isTotal : digitsFrom value digits = some total) (inRange : total < 2 ^ 32) :
    Context.parseIndexFrom value digits = some (UInt32.ofNat total) := by
  induction digits generalizing value with
  | nil =>
      rw [digitsFrom, Option.some.injEq] at isTotal
      rw [Context.parseIndexFrom, isTotal]
  | cons byte rest ih =>
      obtain ⟨isDigit, isRest⟩ := isAsciiDigit_of_digitsFrom isTotal
      have small := le_of_digitsFrom isRest
      have inDigits : ¬(byte < 48 ∨ 57 < byte) := by
        rw [isAsciiDigit, Bool.and_eq_true, decide_eq_true_eq, decide_eq_true_eq] at isDigit
        rw [not_or, UInt8.not_lt, UInt8.not_lt]
        exact isDigit
      rw [Context.parseIndexFrom, if_neg inDigits]
      dsimp only
      rw [if_neg (by omega)]
      exact ih isRest

theorem parseIndex_natBytes (idx : UInt32) :
    Context.parseIndex (natBytes idx.toNat) = some idx := by
  obtain ⟨digit, rest, isText, -, isValue⟩ := natBytes_spec idx.toNat
  rw [isText, Context.parseIndex, List.isEmpty_cons, if_neg Bool.false_ne_true,
    parseIndexFrom_digits isValue idx.toNat_lt, UInt32.ofNat_toNat]

/-! ## Atoms -/

namespace AtomTable

/-- Every text is the text of one atom, which can be found. -/
structure WellFormed (atoms : AtomTable) : Prop where
  fits : atoms.entries.length ≤ 2 ^ 32
  distinct : ∀ (i j : ℕ) text, atoms.entries[i]? = some (some text) →
    atoms.entries[j]? = some (some text) → i = j
  indexed : ∀ (i : ℕ) text, atoms.entries[i]? = some (some text) →
    (atoms.index (fnv1aHash text)).isSome

theorem wellFormed_new : new.WellFormed where
  fits := by decide
  distinct := by
    intro i j text isText
    match i with
    | 0 => cases isText
    | i + 1 => cases isText
  indexed := by
    intro i text isText
    match i with
    | 0 => cases isText
    | i + 1 => cases isText

variable {atoms : AtomTable}

/-- The table of texts. -/
def table (atoms : AtomTable) : HashIndex.Table Bytes UInt64 :=
  ⟨atoms.entries, fun key => (atoms.index key).map UInt32.toNat⟩

theorem WellFormed.table (wellFormed : atoms.WellFormed) : atoms.table.WellFormed fnv1aHash where
  distinct := wellFormed.distinct
  indexed := by
    intro position text isText
    change ((atoms.index (fnv1aHash text)).map UInt32.toNat).isSome = true
    rw [Option.isSome_map]
    exact wellFormed.indexed position text isText

/-- The search is that of the table of texts, with the position cut to 32 bits. -/
theorem find_eq (atoms : AtomTable) (text : Bytes) :
    atoms.find text = (atoms.table.find fnv1aHash text).map UInt32.ofNat := by
  unfold find HashIndex.Table.find table
  dsimp only
  cases atoms.index (fnv1aHash text) with
  | none => rfl
  | some id =>
      rw [Option.map_some]
      dsimp only
      split
      · rw [Option.map_some, UInt32.ofNat_toNat]
      · rfl

/-- A text is found exactly when it is the text of an atom. -/
theorem WellFormed.find_eq_some_iff (wellFormed : atoms.WellFormed) (text : Bytes)
    (id : UInt32) :
    atoms.find text = some id ↔ atoms.entries[id.toNat]? = some (some text) := by
  rw [find_eq, Option.map_eq_some_iff]
  constructor
  · rintro ⟨position, isFound, rfl⟩
    have isText := (wellFormed.table.find_eq_some_iff text position).mp isFound
    have small := (List.getElem?_eq_some_iff.mp isText).1.trans_le wellFormed.fits
    rw [UInt32.toNat_ofNat_of_lt' small]
    exact isText
  · intro isText
    exact ⟨id.toNat, (wellFormed.table.find_eq_some_iff text id.toNat).mpr isText,
      UInt32.ofNat_toNat⟩

theorem WellFormed.find_eq_none_iff (wellFormed : atoms.WellFormed) (text : Bytes) :
    atoms.find text = none ↔ some text ∉ atoms.entries := by
  rw [find_eq, Option.map_eq_none_iff]
  exact wellFormed.table.find_eq_none_iff text

/-- A new atom keeps the table in order. -/
theorem WellFormed.push (wellFormed : atoms.WellFormed) {text : Bytes}
    (notFound : atoms.find text = none) (room : atoms.entries.length < 2 ^ 32) :
    (atoms.push text).2.WellFormed ∧
      (atoms.push text).2.entries[(atoms.push text).1.toNat]? = some (some text) := by
  have isLast : (UInt32.ofNat atoms.entries.length).toNat = atoms.entries.length :=
    UInt32.toNat_ofNat_of_lt' room
  have absent := (wellFormed.find_eq_none_iff text).mp notFound
  have pushed := wellFormed.table.push absent
  refine ⟨⟨?_, pushed.distinct, ?_⟩, ?_⟩
  · change (atoms.entries ++ [some text]).length ≤ 2 ^ 32
    rw [List.length_append, List.length_singleton]
    exact room
  · intro position other isOther
    have isIndexed := pushed.indexed position other isOther
    change (Function.update atoms.table.index _ _ _).isSome = true at isIndexed
    change (Function.update atoms.index _ _ _).isSome = true
    rw [Function.update_apply] at isIndexed ⊢
    split
    · rfl
    · rename_i otherHash
      rw [if_neg otherHash, AtomTable.table, Option.isSome_map] at isIndexed
      exact isIndexed
  · change (atoms.entries ++ [some text])[(UInt32.ofNat atoms.entries.length).toNat]? = _
    rw [isLast, List.getElem?_concat_length]

end AtomTable

/-! ## What an action leaves alone -/

namespace Context

/-- Cells and side maps lie in the memory in use. -/
structure WellFormed (ctx : Context) : Prop where
  atoms : ctx.atoms.WellFormed
  cells : ∀ address, ctx.mem.offset ≤ address → ctx.heap address = none
  maps : ∀ address, ctx.mem.offset ≤ address → ctx.propMaps address = none

/-- `after` comes from `before` by changes at one place at most, and by
allocations. -/
structure Changes (place : Option ℕ) (before after : Context) : Prop where
  wellFormed : before.WellFormed → after.WellFormed
  offset : before.mem.offset ≤ after.mem.offset
  cells : ∀ address, address < before.mem.offset → place ≠ some address →
    after.heap address = before.heap address
  maps : ∀ address, address < before.mem.offset → place ≠ some address →
    after.propMaps address = before.propMaps address
  atoms : ∀ id text, before.atomBytes id = some text → after.atomBytes id = some text

namespace Changes

variable {place : Option ℕ} {first second third : Context}

theorem refl (place : Option ℕ) (ctx : Context) : Changes place ctx ctx where
  wellFormed := id
  offset := Nat.le_refl _
  cells := fun _ _ _ => rfl
  maps := fun _ _ _ => rfl
  atoms := fun _ _ isText => isText

theorem trans (former : Changes place first second) (latter : Changes place second third) :
    Changes place first third where
  wellFormed := fun wellFormed => latter.wellFormed (former.wellFormed wellFormed)
  offset := former.offset.trans latter.offset
  cells := by
    intro address inUse elsewhere
    rw [latter.cells address (inUse.trans_le former.offset) elsewhere,
      former.cells address inUse elsewhere]
  maps := by
    intro address inUse elsewhere
    rw [latter.maps address (inUse.trans_le former.offset) elsewhere,
      former.maps address inUse elsewhere]
  atoms := fun id text isText => latter.atoms id text (former.atoms id text isText)

/-- Changes at no place are changes at any. -/
theorem anywhere (changes : Changes none first second) (place : Option ℕ) :
    Changes place first second :=
  { changes with
    cells := fun address inUse _ => changes.cells address inUse nofun
    maps := fun address inUse _ => changes.maps address inUse nofun }

end Changes

theorem allocCell_changes
    {ctx after : Context} {size address : ℕ} {cell : Cell} (nonempty : 0 < size)
    (allocated : ctx.allocCell size cell = some (address, after)) :
    Changes none ctx after ∧ ctx.mem.offset ≤ address ∧ address < after.mem.offset ∧
      after.heap address = some cell ∧ after.propMaps = ctx.propMaps ∧
      after.atoms = ctx.atoms := by
  unfold allocCell at allocated
  obtain ⟨⟨place, mem⟩, isAlloc, isAfter⟩ := Option.map_eq_some_iff.mp allocated
  obtain ⟨low, offset⟩ := alloc_eq_some isAlloc
  cases isAfter
  refine ⟨⟨?_, ?_, ?_, ?_, ?_⟩, low, ?_, Function.update_self _ _ _, rfl, rfl⟩
  · intro wellFormed
    refine ⟨wellFormed.atoms, ?_, ?_⟩
    · intro other beyond
      dsimp only at beyond ⊢
      rw [Function.update_of_ne (by omega)]
      exact wellFormed.cells other (by omega)
    · intro other beyond
      dsimp only at beyond
      exact wellFormed.maps other (by omega)
  · dsimp only
    omega
  · intro other inUse _
    exact Function.update_of_ne (by omega) _ _
  · intro other _ _
    rfl
  · intro id text isText
    exact isText
  · dsimp only
    omega

theorem allocProperty_changes
    {ctx after : Context} (allocated : ctx.allocProperty = some after) :
    Changes none ctx after ∧ after.heap = ctx.heap ∧ after.propMaps = ctx.propMaps := by
  unfold allocProperty at allocated
  obtain ⟨⟨place, mem⟩, isAlloc, rfl⟩ := Option.map_eq_some_iff.mp allocated
  obtain ⟨low, offset⟩ := alloc_eq_some isAlloc
  refine ⟨⟨?_, ?_, fun _ _ _ => rfl, fun _ _ _ => rfl, fun _ _ isText => isText⟩, rfl, rfl⟩
  · intro wellFormed
    refine ⟨wellFormed.atoms, ?_, ?_⟩
    · intro other beyond
      dsimp only at beyond
      exact wellFormed.cells other (by omega)
    · intro other beyond
      dsimp only at beyond
      exact wellFormed.maps other (by omega)
  · dsimp only
    omega

theorem putObject_changes
    {ctx : Context} {address : ℕ} (inUse : address < ctx.mem.offset) (obj : HeapObject) :
    Changes (some address) ctx (ctx.putObject address obj) where
  wellFormed := by
    intro wellFormed
    refine ⟨wellFormed.atoms, ?_, wellFormed.maps⟩
    intro other beyond
    change ctx.mem.offset ≤ other at beyond
    exact (Function.update_of_ne (by omega) _ _).trans (wellFormed.cells other beyond)
  offset := Nat.le_refl _
  cells := by
    intro other _ elsewhere
    exact Function.update_of_ne (fun same => elsewhere (congrArg some same.symm)) _ _
  maps := fun _ _ _ => rfl
  atoms := fun _ _ isText => isText

theorem putMap_changes
    {ctx : Context} {address : ℕ} (inUse : address < ctx.mem.offset) (map : PropMap) :
    Changes (some address) ctx (ctx.putMap address map) where
  wellFormed := by
    intro wellFormed
    refine ⟨wellFormed.atoms, wellFormed.cells, ?_⟩
    intro other beyond
    change ctx.mem.offset ≤ other at beyond
    exact (Function.update_of_ne (by omega) _ _).trans (wellFormed.maps other beyond)
  offset := Nat.le_refl _
  cells := fun _ _ _ => rfl
  maps := by
    intro other _ elsewhere
    exact Function.update_of_ne (fun same => elsewhere (congrArg some same.symm)) _ _
  atoms := fun _ _ isText => isText

/-- Interning a text gives its atom, or fails and changes nothing. -/
theorem internString_spec
    {ctx : Context} (wellFormed : ctx.WellFormed)
    (room : ctx.atoms.entries.length < 2 ^ 32) (text : Bytes) :
    Changes none ctx (ctx.internString text).2 ∧
      (∀ atom, (ctx.internString text).1 = some atom →
        (ctx.internString text).2.atomBytes atom = some text) ∧
      ((ctx.internString text).1 = none →
        (ctx.internString text).2 = ctx ∧ ctx.atoms.find text = none) := by
  unfold internString
  cases isFound : ctx.atoms.find text with
  | some id =>
      refine ⟨Changes.refl none ctx, ?_, nofun⟩
      intro atom isAtom
      cases isAtom
      have isText := (wellFormed.atoms.find_eq_some_iff text id).mp isFound
      exact congrArg Option.join isText
  | none =>
      cases allocated : ctx.allocString text with
      | none => exact ⟨Changes.refl none ctx, nofun, fun _ => ⟨rfl, rfl⟩⟩
      | some outcome =>
          obtain ⟨address, after⟩ := outcome
          obtain ⟨changes, -, -, -, -, sameAtoms⟩ :=
            allocCell_changes (by omega) allocated
          obtain ⟨pushed, isText⟩ := wellFormed.atoms.push isFound room
          refine ⟨{ changes with wellFormed := ?_, atoms := ?_ }, ?_, nofun⟩
          · intro _
            have kept := changes.wellFormed wellFormed
            refine ⟨?_, kept.cells, kept.maps⟩
            rw [← sameAtoms] at pushed
            exact pushed
          · intro id other isOther
            have inOld : ctx.atoms.entries[id.toNat]? = some (some other) := by
              unfold atomBytes at isOther
              exact Option.join_eq_some_iff.mp isOther
            change (after.atoms.push text).2.entries[id.toNat]?.join = some other
            rw [sameAtoms]
            change (ctx.atoms.entries ++ [some text])[id.toNat]?.join = some other
            rw [List.getElem?_append_left (List.getElem?_eq_some_iff.mp inOld).1, inOld]
            rfl
          · intro atom isAtom
            cases isAtom
            change (after.atoms.push text).2.entries[(after.atoms.push text).1.toNat]?.join = _
            rw [sameAtoms, isText]
            rfl

section Objects

variable {ctx : Context} {address : ℕ} (inUse : address < ctx.mem.offset)

include inUse

theorem setPropValue_changes (obj : HeapObject) (key : PropKey) (value : JSValue) :
    Changes (some address) ctx (ctx.setPropValue address obj key value).2 := by
  have appended : ∀ {before after : Context} (obj : HeapObject),
      address < before.mem.offset → before.allocProperty = some after →
      Changes (some address) before (after.putObject address obj) := by
    intro before after obj inUse allocated
    obtain ⟨changes, -⟩ := allocProperty_changes allocated
    exact (changes.anywhere _).trans
      (putObject_changes (inUse.trans_le changes.offset) obj)
  unfold setPropValue
  split
  · rename_i map _
    have mapped := putMap_changes inUse (Function.update map key.mapKey (some value))
    split
    · exact mapped.trans (putObject_changes (by exact inUse) _)
    · dsimp only
      split
      · exact mapped
      · rename_i allocated
        exact mapped.trans (appended _ inUse allocated)
  · split
    · exact putObject_changes inUse _
    · split
      · exact Changes.refl _ _
      · rename_i after allocated
        have changes := appended (obj.append key value) inUse allocated
        dsimp only
        split
        · exact changes.trans (putMap_changes (inUse.trans_le changes.offset) _)
        · exact changes

theorem deletePropValue_changes (obj : HeapObject) (key : PropKey) :
    Changes (some address) ctx (ctx.deletePropValue address obj key).2 := by
  unfold deletePropValue
  dsimp only
  cases ctx.sideMap address obj with
  | none =>
      split
      · exact putObject_changes inUse _
      · exact Changes.refl _ _
  | some map =>
      have mapped := putMap_changes inUse (Function.update map key.mapKey none)
      split
      · exact mapped.trans (putObject_changes (inUse.trans_le mapped.offset) _)
      · exact mapped

omit inUse in
theorem arrayGrow_changes
    {obj grown : HeapObject} {needed : ℕ} {after : Context}
    (isGrown : ctx.arrayGrow obj needed = some (grown, after)) :
    Changes none ctx after := by
  unfold arrayGrow at isGrown
  obtain ⟨⟨place, mem⟩, isAlloc, isAfter⟩ := Option.map_eq_some_iff.mp isGrown
  obtain ⟨low, offset⟩ := alloc_eq_some isAlloc
  cases isAfter
  refine ⟨?_, ?_, fun _ _ _ => rfl, fun _ _ _ => rfl, fun _ _ isText => isText⟩
  · intro wellFormed
    refine ⟨wellFormed.atoms, ?_, ?_⟩
    · intro other beyond
      dsimp only at beyond
      exact wellFormed.cells other (by omega)
    · intro other beyond
      dsimp only at beyond
      exact wellFormed.maps other (by omega)
  · dsimp only
    omega

omit inUse in
theorem arrayGrow_if_changes
    {obj grown : HeapObject} {needed : ℕ} {after : Context} {grows : Prop} [Decidable grows]
    (isGrown : (if grows then ctx.arrayGrow obj needed else some (obj, ctx)) =
      some (grown, after)) :
    Changes none ctx after := by
  split at isGrown
  · exact arrayGrow_changes isGrown
  · cases isGrown
    exact Changes.refl _ _

theorem arraySet_changes (obj : HeapObject) (idx : UInt32) (value : JSValue) :
    Changes (some address) ctx (ctx.arraySet address obj idx value).2 := by
  unfold arraySet
  split
  · split
    · exact Changes.refl _ _
    · exact putObject_changes inUse _
  · dsimp only
    split
    · exact Changes.refl _ _
    · rename_i grown after isGrown
      have changes := arrayGrow_if_changes isGrown
      have put := fun obj =>
        (changes.anywhere (some address)).trans
          (putObject_changes (inUse.trans_le changes.offset) obj)
      split <;> exact put _

theorem arraySetLength_changes (obj : HeapObject) (value : JSValue) :
    Changes (some address) ctx (ctx.arraySetLength address obj value).2 := by
  unfold arraySetLength
  split
  · split
    · exact Changes.refl _ _
    · dsimp only
      split
      · exact Changes.refl _ _
      · rename_i grown after isGrown
        have changes := arrayGrow_if_changes isGrown
        exact (changes.anywhere (some address)).trans
          (putObject_changes (inUse.trans_le changes.offset) _)
  · exact Changes.refl _ _

end Objects

theorem objectPtr_eq_some
    {ctx : Context} {val : JSValue} {address : ℕ} {obj : HeapObject}
    (isObject : ctx.objectPtr val = some (address, obj)) :
    val = .ptr address ∧ ctx.heap address = some (.object obj) := by
  unfold objectPtr at isObject
  split at isObject
  · split at isObject
    · rename_i stored
      cases isObject
      exact ⟨rfl, stored⟩
    · cases isObject
  · cases isObject

theorem WellFormed.inUse
    {ctx : Context} (wellFormed : ctx.WellFormed) {address : ℕ} {cell : Cell}
    (stored : ctx.heap address = some cell) : address < ctx.mem.offset := by
  by_contra beyond
  rw [wellFormed.cells address (Nat.not_lt.mp beyond)] at stored
  cases stored

/-- The place of a value: its address, if it is an object. -/
def place (ctx : Context) (val : JSValue) : Option ℕ := (ctx.objectPtr val).map Prod.fst

theorem place_eq_some
    {ctx : Context} {val : JSValue} {address : ℕ} {obj : HeapObject}
    (isObject : ctx.objectPtr val = some (address, obj)) : ctx.place val = some address := by
  rw [place, isObject]
  rfl

end Context

section Runs

variable {ctx : Context} (wellFormed : ctx.WellFormed)
  (room : ctx.atoms.entries.length < 2 ^ 32)

include wellFormed room

theorem internString_changes
    (place : Option ℕ) {text : Bytes} {found : Option UInt32} {after : Context}
    (isInterned : ctx.internString text = (found, after)) :
    Context.Changes place ctx after := by
  have changes := (Context.internString_spec wellFormed room text).1
  rw [isInterned] at changes
  exact changes.anywhere place

omit room in
theorem setPropertyIndex_changes (val : JSValue) (idx : UInt32) (value : JSValue) :
    Context.Changes (ctx.place val) ctx (ctx.setPropertyIndex val idx value).2 := by
  unfold Context.setPropertyIndex
  split
  · exact Context.Changes.refl _ _
  · rename_i address obj isObject
    have inUse := wellFormed.inUse (Context.objectPtr_eq_some isObject).2
    rw [Context.place_eq_some isObject]
    split
    · exact Context.arraySet_changes inUse _ _ _
    · exact Context.setPropValue_changes inUse _ _ _

omit room in
theorem deletePropertyIndex_changes (val : JSValue) (idx : UInt32) :
    Context.Changes (ctx.place val) ctx (ctx.deletePropertyIndex val idx).2 := by
  unfold Context.deletePropertyIndex
  split
  · exact Context.Changes.refl _ _
  · rename_i address obj isObject
    have inUse := wellFormed.inUse (Context.objectPtr_eq_some isObject).2
    rw [Context.place_eq_some isObject]
    split
    · exact Context.putObject_changes inUse _
    · exact Context.deletePropValue_changes inUse _ _

/-- An entry point changes the object it acts on, and no other. -/
theorem PropertyOp.run_changes (op : PropertyOp) (val : JSValue) :
    Context.Changes (ctx.place val) ctx (op.run val ctx).2 := by
  have same := Context.Changes.refl (ctx.place val) ctx
  cases op with
  | setStr name value =>
      change Context.Changes _ ctx (ctx.setPropertyStr val name value).2
      unfold Context.setPropertyStr
      split
      · exact same
      · rename_i address obj isObject
        have inUse := wellFormed.inUse (Context.objectPtr_eq_some isObject).2
        split
        · exact setPropertyIndex_changes wellFormed val _ value
        · rw [Context.place_eq_some isObject]
          split
          · exact Context.arraySetLength_changes inUse _ _
          · split
            · rename_i isInterned
              exact internString_changes wellFormed room _ isInterned
            · rename_i isInterned
              have changes := internString_changes wellFormed room (some address) isInterned
              exact changes.trans
                (Context.setPropValue_changes (inUse.trans_le changes.offset) _ _ _)
  | setAtomId atom value =>
      change Context.Changes _ ctx (ctx.setPropertyAtomId val atom value).2
      unfold Context.setPropertyAtomId
      split
      · exact same
      · rename_i address obj isObject
        rw [Context.place_eq_some isObject]
        exact Context.setPropValue_changes
          (wellFormed.inUse (Context.objectPtr_eq_some isObject).2) _ _ _
  | setIndex idx value => exact setPropertyIndex_changes wellFormed val idx value
  | getStr name | hasStr name =>
      dsimp only [run, Context.getPropertyStr, Context.hasPropertyStr]
      split
      · exact same
      · split
        · exact same
        · split
          · rename_i isInterned
            exact internString_changes wellFormed room _ isInterned
          · rename_i isInterned
            exact internString_changes wellFormed room _ isInterned
  | getAtomId | getIndex | keys => exact same
  | deleteStr name =>
      change Context.Changes _ ctx (ctx.deletePropertyStr val name).2
      unfold Context.deletePropertyStr
      split
      · exact same
      · rename_i address obj isObject
        have inUse := wellFormed.inUse (Context.objectPtr_eq_some isObject).2
        split
        · exact deletePropertyIndex_changes wellFormed val _
        · rw [Context.place_eq_some isObject]
          split
          · rename_i isInterned
            exact internString_changes wellFormed room _ isInterned
          · rename_i isInterned
            have changes := internString_changes wellFormed room (some address) isInterned
            exact changes.trans
              (Context.deletePropValue_changes (inUse.trans_le changes.offset) _ _)
  | deleteIndex idx => exact deletePropertyIndex_changes wellFormed val idx

/-- The object an action acts on, if any. -/
def Action.place (ctx : Context) : Action → Option ℕ
  | .on val _ | .setObjectProto val _ => ctx.place val
  | _ => none

/-- An action changes the object it acts on, and no other. -/
theorem Action.run_changes (action : Action) :
    Context.Changes (action.place ctx) ctx (action.run ctx).2 := by
  cases action with
  | on val op => exact op.run_changes wellFormed room val
  | newObject classId =>
      unfold Action.run Context.newObject
      dsimp only
      cases allocated : ctx.allocCell 80 _ with
      | none => exact Context.Changes.refl _ _
      | some outcome => exact (Context.allocCell_changes (by decide) allocated).1
  | newString bytes =>
      unfold Action.run Context.allocString
      dsimp only
      cases allocated : ctx.allocCell _ _ with
      | none => exact Context.Changes.refl _ _
      | some outcome => exact (Context.allocCell_changes (by omega) allocated).1
  | newFloat value =>
      unfold Action.run Context.allocFloat
      dsimp only
      cases allocated : ctx.allocCell _ _ with
      | none => exact Context.Changes.refl _ _
      | some outcome => exact (Context.allocCell_changes (by decide) allocated).1
  | intern bytes => exact (Context.internString_spec wellFormed room bytes).1
  | setObjectProto val proto =>
      change Context.Changes (ctx.place val) ctx (ctx.setObjectProto val proto).2
      unfold Context.setObjectProto
      split
      · exact Context.Changes.refl _ _
      · rename_i address obj isObject
        rw [Context.place_eq_some isObject]
        exact Context.putObject_changes
          (wellFormed.inUse (Context.objectPtr_eq_some isObject).2) _
  | setObjectProtoDefault proto =>
      exact ⟨fun wellFormed => ⟨wellFormed.atoms, wellFormed.cells, wellFormed.maps⟩,
        Nat.le_refl _, fun _ _ _ => rfl, fun _ _ _ => rfl, fun _ _ isText => isText⟩

end Runs

end Script
end MuonJs
