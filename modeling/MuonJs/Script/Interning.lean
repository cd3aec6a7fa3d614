import MuonJs.Lib.HashIndex
import MuonJs.Script.Actions

/-!
# Interning

Atoms with all that the code keeps of them: a pointer to a string in memory, whose header
has the length as a `u32`, a count of references, and an index from hashes to `u32`
identifiers.  For any hash function, distinct strings get distinct identifiers and keep
them, as long as lengths and identifiers fit into 32 bits; what does not fit is truncated.
-/

namespace MuonJs
namespace Script
namespace Interning

open Cache (Bytes)

/-- A string in memory: the length in its `StringHeader`, and the bytes behind it. -/
structure StringCell where
  len : UInt32
  data : Bytes
  len_le : len.toNat ≤ data.length

/-- The bytes that the header counts. -/
def StringCell.stored (cell : StringCell) : Bytes := cell.data.take cell.len.toNat

/-- What `alloc_string` writes: the header keeps the low 32 bits of the length. -/
def StringCell.ofBytes (bytes : Bytes) : StringCell where
  len := UInt32.ofNat bytes.length
  data := bytes
  len_le := by
    rw [UInt32.toNat_ofNat']
    exact Nat.mod_le _ _

/-- `AtomEntry`: a pointer, none for null, and the references. -/
structure AtomEntry where
  bytes : Option ℕ
  refCount : UInt32

/-- The part of `Context` that interning uses: the memory, the string at every pointer, and
the `AtomTable`. -/
structure State where
  mem : MemoryRegion
  strings : ℕ → Option StringCell
  entries : List AtomEntry
  index : UInt64 → Option UInt32

/-! ## The code -/

/-- `AtomEntry::bytes_equal`. -/
def AtomEntry.bytesEqual (strings : ℕ → Option StringCell) (bytes : Bytes) (entry : AtomEntry) :
    Bool :=
  match entry.bytes with
  | none => false
  | some ptr =>
      match strings ptr with
      | none => false
      | some cell =>
          if cell.len.toNat ≠ bytes.length then false else decide (cell.stored = bytes)

/-- One more reference: `saturating_add`. -/
def AtomEntry.retained (entry : AtomEntry) : AtomEntry :=
  { entry with refCount := UInt32.ofNat (min (entry.refCount.toNat + 1) (2 ^ 32 - 1)) }

/-- One reference less, if there is one. -/
def AtomEntry.released (entry : AtomEntry) : AtomEntry :=
  if 0 < entry.refCount then { entry with refCount := entry.refCount - 1 } else entry

namespace State

/-- `Context::new`, before it makes the global object: the reserved atom alone. -/
def new (size : ℕ) : State := ⟨⟨size, 0⟩, fun _ => none, [⟨none, 1⟩], fun _ => none⟩

/-- `Context::alloc_string`. -/
def allocString (state : State) (bytes : Bytes) : Option (ℕ × State) :=
  (state.mem.alloc (8 + bytes.length + 1) 8).map fun (ptr, mem) =>
    (ptr, { state with
      mem := mem
      strings := Function.update state.strings ptr (some (.ofBytes bytes)) })

section Hash

variable (hash : Bytes → UInt64)

/-- `AtomTable::find`. -/
def find (state : State) (bytes : Bytes) : Option UInt32 :=
  match state.index (hash bytes) with
  | none => none
  | some id =>
      if (state.entries[id.toNat]?).any (AtomEntry.bytesEqual state.strings bytes) then some id
      else (state.entries.findIdx? (AtomEntry.bytesEqual state.strings bytes)).map UInt32.ofNat

/-- `AtomTable::push`. -/
def push (state : State) (entry : AtomEntry) : UInt32 × State :=
  let id := UInt32.ofNat state.entries.length
  let index := match entry.bytes.bind state.strings with
    | none => state.index
    | some cell => Function.update state.index (hash cell.stored) (some id)
  (id, { state with entries := state.entries ++ [entry], index := index })

/-- `AtomTable::add_ref`. -/
def addRef (state : State) (id : UInt32) : Bool × State :=
  match state.entries[id.toNat]? with
  | none => (false, state)
  | some entry =>
      (true, { state with entries := state.entries.set id.toNat entry.retained })

/-- `AtomTable::release`. -/
def release (state : State) (id : UInt32) : State :=
  match state.entries[id.toNat]? with
  | none => state
  | some entry =>
      { state with entries := state.entries.set id.toNat entry.released }

/-- `Context::intern_string`. -/
def internString (state : State) (bytes : Bytes) : Option UInt32 × State :=
  match state.find hash bytes with
  | some id => (some id, (state.addRef id).2)
  | none =>
      match state.allocString bytes with
      | none => (none, state)
      | some (ptr, state) =>
          let (id, state) := state.push hash ⟨some ptr, 1⟩
          (some id, state)

end Hash

/-- `Context::atom_bytes`; the reserved atom, where the source reads through a null
pointer, has no string here. -/
def atomBytes (state : State) (id : UInt32) : Option Bytes :=
  ((state.entries[id.toNat]?).bind fun entry => entry.bytes.bind state.strings).map
    StringCell.stored

/-- `Context::atom_dup`. -/
def atomDup (state : State) (id : UInt32) : Bool × State := state.addRef id

/-- `Context::atom_free`. -/
def atomFree (state : State) (id : UInt32) : State := state.release id

end State

/-! ## Runs -/

/-- The calls, and allocations that the rest of the program makes between them, which take
memory and write to it. -/
inductive Step
  | intern (bytes : Bytes)
  | dup (id : UInt32)
  | free (id : UInt32)
  | alloc (size : ℕ) (content : Option StringCell)

namespace State

/-- Another allocation. -/
def takeMemory (state : State) (size : ℕ) (content : Option StringCell) : State :=
  match state.mem.alloc size 8 with
  | none => state
  | some (ptr, mem) =>
      { state with mem := mem, strings := Function.update state.strings ptr content }

variable (hash : Bytes → UInt64)

/-- One step. -/
def step (state : State) : Step → State
  | .intern bytes => (state.internString hash bytes).2
  | .dup id => (state.atomDup id).2
  | .free id => state.atomFree id
  | .alloc size content => state.takeMemory size content

/-- Steps one after the other. -/
def run (steps : List Step) (state : State) : State := steps.foldl (step hash) state

end State

/-! ## The texts of atoms -/

/-- The text of an entry. -/
def AtomEntry.text (strings : ℕ → Option StringCell) (entry : AtomEntry) : Option Bytes :=
  (entry.bytes.bind strings).map StringCell.stored

theorem StringCell.length_stored (cell : StringCell) : cell.stored.length = cell.len.toNat :=
  List.length_take_of_le cell.len_le

/-- A string is read back as it was written exactly when its length fits into the header. -/
theorem StringCell.stored_ofBytes_iff (bytes : Bytes) :
    (ofBytes bytes).stored = bytes ↔ bytes.length < 2 ^ 32 := by
  constructor
  · intro same
    rw [← same, length_stored]
    exact UInt32.toNat_lt _
  · intro isShort
    have isLength : (UInt32.ofNat bytes.length).toNat = bytes.length :=
      UInt32.toNat_ofNat_of_lt' isShort
    rw [stored, ofBytes, isLength, List.take_length]

/-- The comparison of lengths is no more than a shortcut. -/
theorem AtomEntry.bytesEqual_eq (strings : ℕ → Option StringCell) (bytes : Bytes)
    (entry : AtomEntry) :
    entry.bytesEqual strings bytes = decide (entry.text strings = some bytes) := by
  unfold AtomEntry.bytesEqual AtomEntry.text
  cases entry.bytes with
  | none => rfl
  | some ptr =>
      cases isString : strings ptr with
      | none => simp [isString]
      | some cell =>
          simp only [isString, Option.bind_some, Option.map_some, Option.some.injEq]
          by_cases sameLength : cell.len.toNat = bytes.length
          · rw [if_neg (not_not.mpr sameLength)]
          · have notSame : cell.stored ≠ bytes := fun same =>
              sameLength (same ▸ cell.length_stored.symm)
            rw [if_pos sameLength, decide_eq_false notSame]

namespace State

/-- The texts of all entries. -/
def texts (state : State) : List (Option Bytes) := state.entries.map (AtomEntry.text state.strings)

/-- The table of texts. -/
def table (state : State) : HashIndex.Table Bytes UInt64 :=
  ⟨state.texts, fun key => (state.index key).map UInt32.toNat⟩

theorem length_texts (state : State) : state.texts.length = state.entries.length :=
  List.length_map _

theorem length_lt_of_mem_texts {state : State} {bytes : Bytes}
    (isText : some bytes ∈ state.texts) : bytes.length < 2 ^ 32 := by
  obtain ⟨entry, -, isStored⟩ := List.mem_map.mp isText
  obtain ⟨cell, -, rfl⟩ := Option.map_eq_some_iff.mp isStored
  rw [StringCell.length_stored]
  exact cell.len.toNat_lt

theorem atomBytes_eq (state : State) (id : UInt32) :
    state.atomBytes id = (state.texts[id.toNat]?).join := by
  rw [atomBytes, texts, List.getElem?_map]
  cases state.entries[id.toNat]? <;> rfl

/-- The search is that of the table of texts, with the position cut to 32 bits. -/
theorem find_eq (hash : Bytes → UInt64) (state : State) (bytes : Bytes) :
    state.find hash bytes = (state.table.find hash bytes).map UInt32.ofNat := by
  have scans : state.entries.findIdx? (AtomEntry.bytesEqual state.strings bytes) =
      state.texts.findIdx? (· = some bytes) := by
    rw [texts, List.findIdx?_map]
    exact congrArg (List.findIdx? · state.entries)
      (funext fun entry => entry.bytesEqual_eq state.strings bytes)
  have hits : ∀ position : ℕ,
      (state.entries[position]?).any (AtomEntry.bytesEqual state.strings bytes) =
        decide (state.texts[position]? = some (some bytes)) := by
    intro position
    simp only [texts, List.getElem?_map]
    cases state.entries[position]? with
    | none => rfl
    | some entry => simp [AtomEntry.bytesEqual_eq]
  unfold find HashIndex.Table.find table
  dsimp only
  cases state.index (hash bytes) with
  | none => rfl
  | some id =>
      simp only [Option.map_some, scans, hits, decide_eq_true_eq]
      split
      · rw [Option.map_some, UInt32.ofNat_toNat]
      · rfl

/-! ## The invariant -/

/-- The first identifier is reserved, the texts are those of a table with an index, and the
strings of the atoms lie in the memory in use. -/
structure WellFormed (hash : Bytes → UInt64) (state : State) : Prop where
  reserved : state.texts[0]? = some none
  fits : state.entries.length ≤ 2 ^ 32
  table : state.table.WellFormed hash
  inUse : ∀ entry ∈ state.entries, ∀ ptr, entry.bytes = some ptr → ptr < state.mem.offset

theorem wellFormed_new (hash : Bytes → UInt64) (size : ℕ) : (new size).WellFormed hash where
  reserved := rfl
  fits := (by decide : 1 ≤ 2 ^ 32)
  table := by
    have absent : ∀ (position : ℕ) (bytes : Bytes),
        (new size).table.items[position]? ≠ some (some bytes) := by
      intro position bytes isText
      match position with
      | 0 => cases isText
      | position + 1 => cases isText
    exact ⟨fun left _ bytes isLeft => absurd isLeft (absent left bytes),
      fun position bytes isText => absurd isText (absent position bytes)⟩
  inUse := by
    intro entry isEntry ptr isPtr
    rw [List.mem_singleton.mp isEntry] at isPtr
    cases isPtr

variable {hash : Bytes → UInt64} {state : State}

/-- A string is found exactly where its text stands. -/
theorem WellFormed.find_eq_some_iff (wellFormed : state.WellFormed hash) (bytes : Bytes)
    (id : UInt32) :
    state.find hash bytes = some id ↔ state.texts[id.toNat]? = some (some bytes) := by
  rw [find_eq, Option.map_eq_some_iff]
  constructor
  · rintro ⟨position, isFound, rfl⟩
    have isText := (wellFormed.table.find_eq_some_iff bytes position).mp isFound
    have inRange := (List.getElem?_eq_some_iff.mp isText).1
    have small : position < 2 ^ 32 :=
      (inRange.trans_eq state.length_texts).trans_le wellFormed.fits
    rw [UInt32.toNat_ofNat_of_lt' small]
    exact isText
  · intro isText
    exact ⟨id.toNat, (wellFormed.table.find_eq_some_iff bytes id.toNat).mpr isText,
      UInt32.ofNat_toNat⟩

theorem WellFormed.find_eq_none_iff (wellFormed : state.WellFormed hash) (bytes : Bytes) :
    state.find hash bytes = none ↔ some bytes ∉ state.texts := by
  rw [find_eq, Option.map_eq_none_iff, wellFormed.table.find_eq_none_iff]
  rfl

/-- Steps that keep the texts and the index, and only take memory. -/
theorem WellFormed.of_texts (wellFormed : state.WellFormed hash) {after : State}
    (sameTexts : after.texts = state.texts) (sameIndex : after.index = state.index)
    (inUse : ∀ entry ∈ after.entries, ∀ ptr,
      entry.bytes = some ptr → ptr < after.mem.offset) :
    after.WellFormed hash where
  reserved := by rw [sameTexts]; exact wellFormed.reserved
  fits := by
    rw [← length_texts, sameTexts, length_texts]
    exact wellFormed.fits
  table := by
    have sameTable : after.table = state.table := by
      unfold State.table
      rw [sameTexts, sameIndex]
    rw [sameTable]
    exact wellFormed.table
  inUse := inUse

/-! ## References -/

/-- The count of references is no part of the text. -/
theorem texts_set {id : UInt32} {entry changed : AtomEntry}
    (isEntry : state.entries[id.toNat]? = some entry) (sameBytes : changed.bytes = entry.bytes) :
    ({ state with entries := state.entries.set id.toNat changed } : State).texts =
      state.texts := by
  have isText : state.texts[id.toNat]? = some (changed.text state.strings) := by
    rw [texts, List.getElem?_map, isEntry, Option.map_some, AtomEntry.text, AtomEntry.text,
      sameBytes]
  obtain ⟨inRange, isText⟩ := List.getElem?_eq_some_iff.mp isText
  change (state.entries.set id.toNat changed).map _ = _
  rw [List.map_set, ← isText]
  exact List.set_getElem_self inRange

theorem WellFormed.set (wellFormed : state.WellFormed hash) {id : UInt32}
    {entry changed : AtomEntry} (isEntry : state.entries[id.toNat]? = some entry)
    (sameBytes : changed.bytes = entry.bytes) :
    ({ state with entries := state.entries.set id.toNat changed } : State).WellFormed hash := by
  refine wellFormed.of_texts (texts_set isEntry sameBytes) rfl ?_
  intro other isOther ptr isPtr
  rcases List.mem_or_eq_of_mem_set isOther with isOld | rfl
  · exact wellFormed.inUse other isOld ptr isPtr
  · rw [sameBytes] at isPtr
    exact wellFormed.inUse entry (List.mem_of_getElem? isEntry) ptr isPtr

theorem addRef_spec (wellFormed : state.WellFormed hash) (id : UInt32) :
    (state.addRef id).2.WellFormed hash ∧ (state.addRef id).2.texts = state.texts := by
  unfold addRef
  split
  · exact ⟨wellFormed, rfl⟩
  · rename_i entry isEntry
    exact ⟨wellFormed.set isEntry rfl, texts_set isEntry rfl⟩

theorem AtomEntry.released_bytes (entry : AtomEntry) : entry.released.bytes = entry.bytes := by
  unfold AtomEntry.released
  split <;> rfl

theorem release_spec (wellFormed : state.WellFormed hash) (id : UInt32) :
    (state.release id).WellFormed hash ∧ (state.release id).texts = state.texts := by
  unfold release
  split
  · exact ⟨wellFormed, rfl⟩
  · rename_i entry isEntry
    have sameBytes := AtomEntry.released_bytes entry
    exact ⟨wellFormed.set isEntry sameBytes, texts_set isEntry sameBytes⟩

/-! ## Memory -/

/-- What is written behind the memory in use is no part of a text. -/
theorem texts_update (wellFormed : state.WellFormed hash) {ptr : ℕ} {mem : MemoryRegion}
    (isBehind : state.mem.offset ≤ ptr) (content : Option StringCell) :
    ({ state with mem := mem, strings := Function.update state.strings ptr content } :
      State).texts = state.texts := by
  refine List.map_congr_left fun entry isEntry => ?_
  rw [AtomEntry.text, AtomEntry.text]
  cases isPtr : entry.bytes with
  | none => rfl
  | some other =>
      have inUse := wellFormed.inUse entry isEntry other isPtr
      have isElsewhere : other ≠ ptr := by omega
      simp only [Option.bind_some, Function.update_of_ne isElsewhere]

theorem WellFormed.update (wellFormed : state.WellFormed hash) {ptr : ℕ} {mem : MemoryRegion}
    (isBehind : state.mem.offset ≤ ptr) (grows : state.mem.offset ≤ mem.offset)
    (content : Option StringCell) :
    ({ state with mem := mem, strings := Function.update state.strings ptr content } :
      State).WellFormed hash :=
  wellFormed.of_texts (texts_update wellFormed isBehind content) rfl
    fun entry isEntry other isPtr => (wellFormed.inUse entry isEntry other isPtr).trans_le grows

theorem takeMemory_spec (wellFormed : state.WellFormed hash) (size : ℕ)
    (content : Option StringCell) :
    (state.takeMemory size content).WellFormed hash ∧
      (state.takeMemory size content).texts = state.texts := by
  unfold takeMemory
  split
  · exact ⟨wellFormed, rfl⟩
  · rename_i ptr mem isAlloc
    obtain ⟨isBehind, isOffset⟩ := Context.alloc_eq_some isAlloc
    exact ⟨wellFormed.update isBehind (by omega) content,
      texts_update wellFormed isBehind content⟩

/-! ## New atoms -/

theorem texts_push (hash : Bytes → UInt64) (state : State) (entry : AtomEntry) :
    (state.push hash entry).2.texts = state.texts ++ [entry.text state.strings] :=
  List.map_append

/-- A new entry for a string that is in memory, and that no other entry has. -/
theorem WellFormed.push (wellFormed : state.WellFormed hash) {ptr : ℕ} {cell : StringCell}
    (isString : state.strings ptr = some cell) (inUse : ptr < state.mem.offset)
    (absent : some cell.stored ∉ state.texts) (room : state.entries.length < 2 ^ 32) :
    (state.push hash ⟨some ptr, 1⟩).2.WellFormed hash := by
  have isText : AtomEntry.text state.strings ⟨some ptr, 1⟩ = some cell.stored := by
    simp [AtomEntry.text, isString]
  have isLast : (UInt32.ofNat state.entries.length).toNat = state.texts.length := by
    rw [UInt32.toNat_ofNat_of_lt' room, length_texts]
  have isTable :
      (state.push hash ⟨some ptr, 1⟩).2.table = state.table.push hash cell.stored := by
    unfold State.table HashIndex.Table.push
    rw [texts_push, isText, HashIndex.Table.mk.injEq]
    refine ⟨rfl, funext fun key => ?_⟩
    simp only [State.push, Option.bind_some, isString]
    by_cases isKey : key = hash cell.stored
    · simp [isKey, isLast]
    · simp [isKey]
  exact {
    reserved := by
      rw [texts_push, List.getElem?_append_left]
      · exact wellFormed.reserved
      · exact (List.getElem?_eq_some_iff.mp wellFormed.reserved).1
    fits := by
      rw [← length_texts, texts_push, List.length_append, length_texts]
      exact room
    table := by
      rw [isTable]
      exact wellFormed.table.push absent
    inUse := by
      intro entry isEntry other isPtr
      rcases List.mem_append.mp isEntry with isOld | isNew
      · exact wellFormed.inUse entry isOld other isPtr
      · rw [List.mem_singleton.mp isNew] at isPtr
        cases isPtr
        exact inUse }

/-- What `intern_string` does: it finds the string, or finds no memory for it, or puts it
into memory and appends an entry. -/
theorem WellFormed.internString_cases (wellFormed : state.WellFormed hash) (bytes : Bytes) :
    (∃ id, state.texts[id.toNat]? = some (some bytes) ∧
      state.internString hash bytes = (some id, (state.addRef id).2)) ∨
    (some bytes ∉ state.texts ∧ state.mem.alloc (8 + bytes.length + 1) 8 = none ∧
      state.internString hash bytes = (none, state)) ∨
    (some bytes ∉ state.texts ∧
      ∃ (ptr : ℕ) (placed : State),
        state.mem.alloc (8 + bytes.length + 1) 8 = some (ptr, placed.mem) ∧
        placed.strings ptr = some (.ofBytes bytes) ∧ ptr < placed.mem.offset ∧
        placed.WellFormed hash ∧ placed.texts = state.texts ∧
        state.internString hash bytes =
          (some (UInt32.ofNat state.entries.length), (placed.push hash ⟨some ptr, 1⟩).2)) := by
  rw [internString, allocString]
  cases isFound : state.find hash bytes with
  | some id =>
      exact .inl ⟨id, (wellFormed.find_eq_some_iff bytes id).mp isFound, rfl⟩
  | none =>
      have absent := (wellFormed.find_eq_none_iff bytes).mp isFound
      cases isAlloc : state.mem.alloc (8 + bytes.length + 1) 8 with
      | none => exact .inr (.inl ⟨absent, rfl, rfl⟩)
      | some taken =>
          obtain ⟨ptr, mem⟩ := taken
          obtain ⟨isBehind, isOffset⟩ := Context.alloc_eq_some isAlloc
          refine .inr (.inr ⟨absent, ptr, _, rfl, Function.update_self _ _ _, ?_,
            wellFormed.update isBehind ?_ _, texts_update wellFormed isBehind _, rfl⟩)
          · dsimp only
            omega
          · omega

/-! ## What fits -/

/-- Lengths and identifiers fit into 32 bits: if there is memory for the string then it is
shorter than `2 ^ 32`, and it is in the table or the table has fewer than `2 ^ 32` entries. -/
def Representable (state : State) (bytes : Bytes) : Prop :=
  (state.mem.alloc (8 + bytes.length + 1) 8).isSome →
    bytes.length < 2 ^ 32 ∧ (some bytes ∈ state.texts ∨ state.entries.length < 2 ^ 32)

/-- A call whose string and identifier fit keeps the order of the table and all its texts,
and the identifier is that of the string. -/
theorem WellFormed.internString_spec (wellFormed : state.WellFormed hash) {bytes : Bytes}
    (fits : state.Representable bytes) :
    (state.internString hash bytes).2.WellFormed hash ∧
      state.texts <+: (state.internString hash bytes).2.texts ∧
      ∀ id, (state.internString hash bytes).1 = some id →
        (state.internString hash bytes).2.texts[id.toNat]? = some (some bytes) := by
  rcases wellFormed.internString_cases bytes with
    ⟨found, isText, result⟩ | ⟨-, -, result⟩ |
      ⟨absent, ptr, placed, isAlloc, isString, inUse, isPlaced, sameTexts, result⟩
  · obtain ⟨keeps, sameTexts⟩ := addRef_spec wellFormed found
    rw [result, sameTexts]
    refine ⟨keeps, List.prefix_refl _, fun id isId => ?_⟩
    rw [← Option.some.inj isId]
    exact isText
  · rw [result]
    exact ⟨wellFormed, List.prefix_refl _, fun id isId => nomatch isId⟩
  · obtain ⟨isShort, isOld | room⟩ := fits (by rw [isAlloc]; rfl)
    · exact absurd isOld absent
    have isStored : (StringCell.ofBytes bytes).stored = bytes :=
      (StringCell.stored_ofBytes_iff bytes).mpr isShort
    have isText : AtomEntry.text placed.strings ⟨some ptr, 1⟩ = some bytes := by
      simp [AtomEntry.text, isString, isStored]
    have sameLength : placed.entries.length = state.entries.length := by
      rw [← length_texts, sameTexts, length_texts]
    rw [result]
    refine ⟨isPlaced.push isString inUse ?_ (sameLength.trans_lt room), ?_, fun id isId => ?_⟩
    · rw [isStored, sameTexts]
      exact absent
    · rw [texts_push, sameTexts]
      exact List.prefix_append _ _
    · rw [← Option.some.inj isId, texts_push, isText, sameTexts,
        UInt32.toNat_ofNat_of_lt' room, ← length_texts, List.getElem?_concat_length]

/-- A call whose string or identifier does not fit succeeds all the same, with the reserved
identifier or with one of other bytes. -/
theorem WellFormed.not_representable (wellFormed : state.WellFormed hash) {bytes : Bytes}
    (exceeds : ¬state.Representable bytes) :
    ∃ id, (state.internString hash bytes).1 = some id ∧
      (id = 0 ∨ (state.internString hash bytes).2.atomBytes id ≠ some bytes) := by
  rw [Representable, Classical.not_imp, not_and] at exceeds
  obtain ⟨hasMemory, exceeds⟩ := exceeds
  rcases wellFormed.internString_cases bytes with
    ⟨found, isText, -⟩ | ⟨-, isFull, -⟩ |
      ⟨absent, ptr, placed, -, isString, -, -, sameTexts, result⟩
  · have isOld := List.mem_of_getElem? isText
    exact absurd (.inl isOld) (exceeds (length_lt_of_mem_texts isOld))
  · rw [isFull] at hasMemory
    cases hasMemory
  · rw [result]
    refine ⟨_, rfl, ?_⟩
    by_cases room : state.entries.length < 2 ^ 32
    · refine .inr fun isBytes => ?_
      have isText : AtomEntry.text placed.strings ⟨some ptr, 1⟩ =
          some (StringCell.ofBytes bytes).stored := by
        simp [AtomEntry.text, isString]
      rw [atomBytes_eq, texts_push, isText, sameTexts, UInt32.toNat_ofNat_of_lt' room,
        ← length_texts, List.getElem?_concat_length, Option.join_some, Option.some.injEq,
        StringCell.stored_ofBytes_iff] at isBytes
      exact exceeds isBytes (.inr room)
    · have isFull : state.entries.length = 2 ^ 32 :=
        le_antisymm wellFormed.fits (Nat.le_of_not_lt room)
      rw [isFull]
      exact .inl rfl

/-- One step keeps the order of the table and all its texts. -/
theorem WellFormed.step (wellFormed : state.WellFormed hash) (step : Step)
    (fits : ∀ bytes, step = .intern bytes → state.Representable bytes) :
    (state.step hash step).WellFormed hash ∧
      state.texts <+: (state.step hash step).texts := by
  cases step with
  | intern bytes =>
      have interned := wellFormed.internString_spec (fits bytes rfl)
      exact ⟨interned.1, interned.2.1⟩
  | dup id =>
      obtain ⟨keeps, sameTexts⟩ := addRef_spec wellFormed id
      exact ⟨keeps, sameTexts ▸ List.prefix_refl _⟩
  | free id =>
      obtain ⟨keeps, sameTexts⟩ := release_spec wellFormed id
      exact ⟨keeps, sameTexts ▸ List.prefix_refl _⟩
  | alloc size content =>
      obtain ⟨keeps, sameTexts⟩ := takeMemory_spec wellFormed size content
      exact ⟨keeps, sameTexts ▸ List.prefix_refl _⟩

end State

/-! ## Whole runs -/

open State

/-- The state after some steps in a region of the given size. -/
def after (hash : Bytes → UInt64) (size : ℕ) (steps : List Step) : State :=
  (new size).run hash steps

/-- In a run, the call of `intern_string` after the steps `before` succeeds. -/
structure Interned (hash : Bytes → UInt64) (size : ℕ) (steps before : List Step)
    (bytes : Bytes) (id : UInt32) : Prop where
  isCall : before ++ [.intern bytes] <+: steps
  succeeds : ((after hash size before).internString hash bytes).1 = some id

/-- Interning is injective and stable: in the run, successful calls return the same
identifier exactly for equal strings, none returns the reserved one, and at every later
moment the identifier stands for the string. -/
structure InternsWell (hash : Bytes → UInt64) (size : ℕ) (steps : List Step) : Prop where
  injective : ∀ before before' bytes bytes' id id', Interned hash size steps before bytes id →
    Interned hash size steps before' bytes' id' → (id = id' ↔ bytes = bytes')
  nonzero : ∀ before bytes id, Interned hash size steps before bytes id → id ≠ 0
  stable : ∀ before bytes id later, Interned hash size steps before bytes id →
    before ++ [.intern bytes] <+: later → later <+: steps →
      (after hash size later).atomBytes id = some bytes

/-- In every call of `intern_string`, length and identifier fit into 32 bits. -/
def AllRepresentable (hash : Bytes → UInt64) (size : ℕ) (steps : List Step) : Prop :=
  ∀ before bytes, before ++ [.intern bytes] <+: steps →
    (after hash size before).Representable bytes

section Runs

variable {hash : Bytes → UInt64} {size : ℕ} {steps : List Step}

theorem after_concat (hash : Bytes → UInt64) (size : ℕ) (steps : List Step) (step : Step) :
    after hash size (steps ++ [step]) = (after hash size steps).step hash step :=
  List.foldl_concat ..

theorem AllRepresentable.of_prefix (represented : AllRepresentable hash size steps)
    {early : List Step} (isEarly : early <+: steps) : AllRepresentable hash size early :=
  fun before bytes isCall => represented before bytes (isCall.trans isEarly)

/-- The table is in order after every run whose calls fit. -/
theorem AllRepresentable.wellFormed (represented : AllRepresentable hash size steps) :
    (after hash size steps).WellFormed hash := by
  induction steps using List.reverseRecOn with
  | nil => exact wellFormed_new hash size
  | append_singleton steps step ih =>
      rw [after_concat]
      have wellFormed := ih (represented.of_prefix (List.prefix_append _ _))
      refine (wellFormed.step step fun bytes isIntern => represented steps bytes ?_).1
      rw [isIntern]

/-- Identifiers keep their texts. -/
theorem AllRepresentable.earlier_texts {early : List Step}
    (represented : AllRepresentable hash size steps) (isEarly : early <+: steps) :
    (after hash size early).texts <+: (after hash size steps).texts := by
  induction steps using List.reverseRecOn with
  | nil => rw [List.prefix_nil.mp isEarly]
  | append_singleton steps step ih =>
      rcases List.prefix_concat_iff.mp isEarly with rfl | isEarly
      · exact List.prefix_refl _
      · have shorter := represented.of_prefix (List.prefix_append steps [step])
        refine (ih shorter isEarly).trans ?_
        rw [after_concat]
        refine (shorter.wellFormed.step step fun bytes isIntern => represented steps bytes ?_).2
        rw [isIntern]

/-- The identifier that a call returns has the text of the string at every later moment. -/
theorem Interned.getElem?_texts {before later : List Step} {bytes : Bytes} {id : UInt32}
    (interned : Interned hash size steps before bytes id)
    (represented : AllRepresentable hash size steps)
    (isLater : before ++ [.intern bytes] <+: later) (inRun : later <+: steps) :
    (after hash size later).texts[id.toNat]? = some (some bytes) := by
  have isBefore := (List.prefix_append before [.intern bytes]).trans interned.isCall
  have wellFormed := (represented.of_prefix isBefore).wellFormed
  have isText := (wellFormed.internString_spec (represented before bytes interned.isCall)).2.2 id
    interned.succeeds
  have isPrefix := (represented.of_prefix inRun).earlier_texts isLater
  rw [after_concat, State.step] at isPrefix
  obtain ⟨suffix, isTexts⟩ := isPrefix
  rw [← isTexts, List.getElem?_append_left (List.getElem?_eq_some_iff.mp isText).1]
  exact isText

/-- Runs whose calls fit intern well. -/
theorem AllRepresentable.internsWell (represented : AllRepresentable hash size steps) :
    InternsWell hash size steps where
  injective := by
    intro before before' bytes bytes' id id' first second
    have isFirst := first.getElem?_texts represented first.isCall (List.prefix_refl _)
    have isSecond := second.getElem?_texts represented second.isCall (List.prefix_refl _)
    constructor
    · rintro rfl
      rw [isFirst] at isSecond
      exact Option.some.inj (Option.some.inj isSecond)
    · rintro rfl
      exact UInt32.toNat_inj.mp (represented.wellFormed.table.distinct _ _ bytes isFirst isSecond)
  nonzero := by
    rintro before bytes id interned rfl
    have isText := interned.getElem?_texts represented interned.isCall (List.prefix_refl _)
    have isReserved := represented.wellFormed.reserved
    rw [UInt32.toNat_zero, isReserved] at isText
    cases isText
  stable := by
    intro before bytes id later interned isLater inRun
    rw [atomBytes_eq, interned.getElem?_texts represented isLater inRun, Option.join_some]

/-- A first call that does not fit does not intern well. -/
theorem InternsWell.representable (internsWell : InternsWell hash size steps)
    {before : List Step} {bytes : Bytes} (isCall : before ++ [.intern bytes] <+: steps)
    (wellFormed : (after hash size before).WellFormed hash) :
    (after hash size before).Representable bytes := by
  by_contra exceeds
  obtain ⟨id, succeeds, isWrong⟩ := wellFormed.not_representable exceeds
  have interned : Interned hash size steps before bytes id := ⟨isCall, succeeds⟩
  rcases isWrong with isZero | notBytes
  · exact internsWell.nonzero before bytes id interned isZero
  · have isBytes := internsWell.stable before bytes id _ interned (List.prefix_refl _) isCall
    rw [after_concat] at isBytes
    exact notBytes isBytes

/-- Interning is injective and stable, for every hash function, exactly in the runs in which
lengths and identifiers fit into 32 bits. -/
theorem internsWell_iff (hash : Bytes → UInt64) (size : ℕ) (steps : List Step) :
    InternsWell hash size steps ↔ AllRepresentable hash size steps := by
  refine ⟨fun internsWell => ?_, AllRepresentable.internsWell⟩
  -- By induction on the moment of the call: all calls before it fit.
  have represented : ∀ early, early <+: steps → AllRepresentable hash size early := by
    intro early
    induction early using List.reverseRecOn with
    | nil =>
        intro _ before bytes isCall
        exact absurd (List.prefix_nil.mp isCall) (List.append_ne_nil_of_right_ne_nil _ nofun)
    | append_singleton early step ih =>
        intro isEarly before bytes isCall
        have shorter := ih ((List.prefix_append early [step]).trans isEarly)
        rcases List.prefix_concat_iff.mp isCall with isLast | isOld
        · rw [(List.append_inj' isLast rfl).1]
          refine internsWell.representable ?_ shorter.wellFormed
          rw [← (List.append_inj' isLast rfl).1]
          exact isCall.trans isEarly
        · exact shorter before bytes isOld
  exact represented steps (List.prefix_refl _)

/-- A single call, when there is memory for its string. -/
theorem InternsWell.length_lt {bytes : Bytes}
    (internsWell : InternsWell hash size [.intern bytes]) (hasMemory : bytes.length + 9 ≤ size) :
    bytes.length < 2 ^ 32 := by
  have isCall : [] ++ [Step.intern bytes] <+: [.intern bytes] := List.prefix_refl _
  have isNew : (after hash size []).WellFormed hash := wellFormed_new hash size
  refine (internsWell.representable isCall isNew ?_).1
  have isStart : alignUp 0 8 = 0 := by decide
  change (MemoryRegion.alloc ⟨size, 0⟩ (8 + bytes.length + 1) 8).isSome = true
  rw [MemoryRegion.alloc, isStart, if_neg (by dsimp only; omega)]
  rfl

end Runs

/-- A string of `2 ^ 32` zeros: its header says that it is empty. -/
theorem not_always_internsWell :
    ¬InternsWell fnv1aHash (2 ^ 32 + 9) [.intern (List.replicate (2 ^ 32) 0)] := by
  intro internsWell
  have isShort := internsWell.length_lt (by rw [List.length_replicate])
  rw [List.length_replicate] at isShort
  exact absurd isShort (lt_irrefl _)

end Interning
end Script
end MuonJs
