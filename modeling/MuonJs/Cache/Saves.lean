import MuonJs.Cache.RoundTrip
import MuonJs.Lib.Trace

/-!
# A server that loads once and saves many times

At start the server loads the tables into its databases and goes on whatever
the load reports.  `SAVE` copies the live entries of the databases and writes a
snapshot of the copies; any statement of the load and of a `SAVE` may fail.

A key that the load has read and that nobody has touched stays persisted.  A key
that the load has not read is deleted by the next `SAVE` that succeeds.  A `SAVE`
that fails changes nothing, but it can leave its transaction open, and then every
later `SAVE` fails.
-/

namespace MuonJs
namespace Cache

/-! ## Copies of the databases -/

namespace Db

/-- Set items one after the other. -/
def setItems (db : Db) (items : List Item) : Db :=
  items.foldl (fun db item => (db.access item.1 (Shard.set item.2.1 item.2.2)).2) db

/-- Setting items with distinct keys leaves every item under its key and the
other keys as they were. -/
theorem lookup_setItems
    (db : Db) (items : List Item) (distinct : (items.map Prod.fst).Nodup)
    (key : Bytes) :
    (∀ value exp, (key, value, exp) ∈ items →
        (db.setItems items).lookup key = some ⟨value, exp⟩) ∧
      (key ∉ items.map Prod.fst → (db.setItems items).lookup key = db.lookup key) := by
  induction items generalizing db with
  | nil => exact ⟨nofun, fun _ => rfl⟩
  | cons item items ih =>
      obtain ⟨itemKey, itemValue, itemExp⟩ := item
      obtain ⟨notLater, restDistinct⟩ := List.nodup_cons.mp distinct
      obtain ⟨restPresent, restAbsent⟩ :=
        ih (db.access itemKey (Shard.set itemValue itemExp)).2 restDistinct
      constructor
      · intro value exp present
        rcases List.mem_cons.mp present with isFirst | later
        · cases isFirst
          refine (restAbsent notLater).trans ?_
          rw [lookup_access, if_pos rfl]
          rfl
        · exact restPresent value exp later
      · intro absent
        rw [List.map_cons, List.mem_cons, not_or] at absent
        refine (restAbsent absent.2).trans ?_
        rw [lookup_access, if_neg fun same => absent.1 same.symm]

/-- The copy of a database that `snapshot_dbs_for_persistence` makes. -/
def copyAt (now : UInt64) (db : Db) : Db :=
  empty.setItems (LibsqlPersist.itemsAt now db)

/-- The copy holds the live entries. -/
theorem lookup_copyAt (now : UInt64) (db : Db) (key : Bytes) :
    (db.copyAt now).lookup key = db.visible now key := by
  obtain ⟨present, absent⟩ := lookup_setItems empty
    (LibsqlPersist.itemsAt now db) (LibsqlPersist.itemsAt_distinct now db) key
  cases visible : db.visible now key with
  | none =>
      refine (absent ?_).trans (lookup_empty key)
      rw [LibsqlPersist.mem_itemsAt_keys, visible]
      simp
  | some entry =>
      exact present _ _
        ((LibsqlPersist.mem_itemsAt now db key entry.value entry.expiresAt).mpr visible)

/-- What the copying leaves in the database itself. -/
def afterCopy (now : UInt64) (db : Db) : Db :=
  (snapshotItems.run (Call.exec now) db).2

/-- Copying purges the database and nothing else. -/
theorem purge_afterCopy (now : UInt64) (db : Db) :
    (db.afterCopy now).purge now = db.purge now := by
  have keeps : ∀ (call : Call) (after : Db),
      (∃ index, call = .shard index .snapshotItems) →
      after.purge now = db.purge now →
      (call.exec now after).2.purge now = db.purge now := by
    rintro _ after ⟨index, rfl⟩ same
    exact (Call.purge_purgeShard after now index).trans same
  have issues : snapshotItems.Issues fun call : Call =>
      ∃ index, call = .shard index .snapshotItems :=
    (eachShard_issues .snapshotItems fun index => ⟨index, rfl⟩).bind
      fun _ => trivial
  exact Program.run_preserves (S := Call.signature) keeps snapshotItems issues rfl

/-- A live entry stays where it is. -/
theorem lookup_afterCopy
    {now : UInt64} {db : Db} {key : Bytes} {entry : Entry}
    (visible : db.visible now key = some entry) :
    (db.afterCopy now).lookup key = some entry := by
  have stillVisible : (db.afterCopy now).visible now key = some entry := by
    rw [← visible]
    exact visible_eq_of_purge_eq (purge_afterCopy now db) key
  exact (Option.filter_eq_some_iff.mp stillVisible).1

end Db

namespace LibsqlPersist

/-! ## Tables written by snapshots -/

/-- What snapshots write into a cell: a known type, and stream IDs that are
texts. -/
structure WrittenSlice (slice : Slice) : Prop where
  knownType : ∀ row, slice.kv = some row → 0 ≤ row.type ∧ row.type ≤ 5
  textIds : ∀ row ∈ slice.streamEntries, ∃ text, row.1.1 = asBytes text

/-- The tables that snapshots leave, one after the other, in a new schema. -/
inductive Persisted : Tables → Prop
  | new : Persisted Tables.empty
  | saved {n : ℕ} {now : UInt64} {dbs : Dbs n} {before after : Tables}
      (persisted : Persisted before)
      (written : snapshotEffect now dbs before = some after) : Persisted after

theorem emptySlice_written : WrittenSlice emptySlice := ⟨nofun, nofun⟩

theorem encode_written
    {slice after : Slice} {value : Value} {exp : Option UInt64}
    (written : WrittenSlice slice) (encoded : encode slice value exp = some after) :
    WrittenSlice after := by
  have known : ∀ (type : Int) (bytes : Option Bytes) (row : KvRow),
      0 ≤ type ∧ type ≤ 5 →
      some (⟨type, bytes, exp.map UInt64.toInt64⟩ : KvRow) = some row →
      0 ≤ row.type ∧ row.type ≤ 5 := by
    rintro type bytes row bounds ⟨⟩
    exact bounds
  cases value with
  | stream items =>
      rw [encode] at encoded
      split at encoded
      · cases encoded
        exact ⟨fun row => known 5 _ row (by decide), streamRows_texts items⟩
      · cases encoded
  | string | int =>
      cases encoded
      exact ⟨fun row => known 0 _ row (by decide), written.textIds⟩
  | list items =>
      cases encoded
      exact ⟨fun row => known 1 _ row (by decide), written.textIds⟩
  | set items =>
      cases encoded
      exact ⟨fun row => known 2 _ row (by decide), written.textIds⟩
  | hash items =>
      cases encoded
      exact ⟨fun row => known 3 _ row (by decide), written.textIds⟩
  | zset items =>
      cases encoded
      exact ⟨fun row => known 4 _ row (by decide), written.textIds⟩

/-- Every cell of persisted tables was written by a snapshot. -/
theorem Persisted.written {tables : Tables} (persisted : Persisted tables)
    (cell : Cell) : WrittenSlice (tables.slice cell) := by
  induction persisted with
  | new => exact emptySlice_written
  | @saved n now dbs before after _ written ih =>
      have snapshotOf := (snapshotEffect_spec now dbs before).2 after written
      by_cases own : ∃ idx : Fin n, cell.1 = (idx.val : Int)
      · obtain ⟨idx, isOwn⟩ := own
        obtain ⟨cellDb, key⟩ := cell
        obtain rfl : cellDb = (idx.val : Int) := isOwn
        cases visible : (dbs idx).visible now key with
        | none =>
            rcases snapshotOf.swept idx key visible with kept | emptied
            · rw [kept]
              exact ih
            · rw [emptied]
              exact emptySlice_written
        | some entry =>
            have encoded := snapshotOf.live idx key entry.value
              entry.expiresAt visible
            rw [applySlices_writesOf] at encoded
            exact encode_written ih encoded
      · rw [snapshotOf.foreign cell fun idx same => own ⟨idx, same⟩]
        exact ih

/-- A value found in a collected map is that of one of its rows. -/
theorem mem_of_lookup_collectMap
    (rows : List (Bytes × α)) {key : Bytes} {value : α}
    (found : (collectMap rows)[key]? = some value) :
    (key, value) ∈ rows := by
  induction rows using List.reverseRecOn with
  | nil => simp [collectMap] at found
  | append_singleton rows row ih =>
      rw [collectMap, List.foldl_append, List.foldl_cons, List.foldl_nil,
        ByteMap.lookup_insert] at found
      rw [List.mem_append, List.mem_singleton]
      split at found
      case isTrue same => exact .inr (Prod.ext same.symm (Option.some.inj found).symm)
      case isFalse other => exact .inl (ih found)

/-- A sorted set is read from rows whose scores are numbers, a stream from its rows in
order. -/
theorem decodeValue_spec {row : KvRow} {slice : Slice} {value : Value}
    (read : decodeValue row slice = .ok (some value)) :
    (∀ items, value = .zset items →
      ∃ scores rows, List.mapM readScore rows = .ok scores ∧ items = collectMap scores) ∧
    ∀ items, value = .stream items →
      items = groupEntries [] none []
        (slice.streamEntries.insertionSort fun left right => Statement.entryLe left right) := by
  unfold decodeValue at read
  split_ifs at read
  · cases read
    exact ⟨nofun, nofun⟩
  · cases read
    exact ⟨nofun, nofun⟩
  · cases read
    exact ⟨nofun, nofun⟩
  · cases read
    exact ⟨nofun, nofun⟩
  · cases scoresRead : (slice.zsetItems.insertionSort fun left right =>
        Statement.scoreLe left right).mapM readScore with
    | error reason =>
        rw [scoresRead] at read
        cases read
    | ok scores =>
        rw [scoresRead] at read
        cases read
        exact ⟨fun _ same => ⟨scores, _, scoresRead, (Value.zset.inj same).symm⟩, nofun⟩
  · cases read
    exact ⟨nofun, fun _ same => (Value.stream.inj same).symm⟩
  · cases read

/-- What a load reads from a written cell is persistable. -/
theorem persistable_of_decode
    {slice : Slice} {entry : Entry} (written : WrittenSlice slice)
    (decoded : decode slice = .ok (some entry)) :
    entry.value.Persistable := by
  cases stored : slice.kv with
  | none =>
      rw [decode, stored] at decoded
      cases decoded
  | some row =>
      rw [decode, stored] at decoded
      dsimp only at decoded
      cases read : decodeValue row slice with
      | error reason =>
          rw [read] at decoded
          cases decoded
      | ok value =>
          cases value with
          | none =>
              rw [read] at decoded
              cases decoded
          | some value =>
              rw [read] at decoded
              cases decoded
              cases value with
              | zset items =>
                  intro member score found
                  obtain ⟨scores, rows, scoresRead, rfl⟩ :=
                    (decodeValue_spec read).1 items rfl
                  have isScore := mem_of_lookup_collectMap scores found
                  have rowsRead := (mapM_readScore_eq_ok rows scores).mp scoresRead
                  have isRow : (member, some score) ∈ rows.map plainRow :=
                    rowsRead ▸ List.mem_map.mpr ⟨_, isScore, rfl⟩
                  obtain ⟨⟨rowMember, real⟩, -, same⟩ := List.mem_map.mp isRow
                  obtain ⟨number, -, rfl⟩ :=
                    Option.map_eq_some_iff.mp (Prod.ext_iff.mp same).2
                  exact number.2
              | stream items =>
                  rw [(decodeValue_spec read).2 items rfl]
                  refine groupEntries_increase _
                    (List.pairwise_insertionSort _ _) (fun row rowMem => ?_)
                    [] none [] ⟨rfl, rfl⟩ (by rintro _ ⟨⟩)
                  exact written.textIds row ((List.mem_insertionSort _).mp rowMem)
              | _ => trivial

/-- A stored row of a known type stands for an entry, if it can be read. -/
theorem isSome_of_decode
    {slice : Slice} {entry : Option Entry} (written : WrittenSlice slice)
    (stored : slice.kv.isSome) (decoded : decode slice = .ok entry) :
    entry.isSome := by
  obtain ⟨row, isRow⟩ := Option.isSome_iff_exists.mp stored
  obtain ⟨notNegative, atMost⟩ := written.knownType row isRow
  rw [decode, isRow] at decoded
  dsimp only at decoded
  unfold decodeValue at decoded
  split_ifs at decoded
  · cases decoded
    rfl
  · cases decoded
    rfl
  · cases decoded
    rfl
  · cases decoded
    rfl
  · cases scoresRead : (slice.zsetItems.insertionSort fun left right =>
        Statement.scoreLe left right).mapM readScore with
    | error reason =>
        rw [scoresRead] at decoded
        cases decoded
    | ok scores =>
        rw [scoresRead] at decoded
        cases decoded
        rfl
  · cases decoded
    rfl
  · omega

/-! ## The server -/

/-- The databases of a server with its persistence connection. -/
structure Service (n : ℕ) where
  dbs : Dbs n
  connection : Connection

/-- What happens to a server: a client's call on one of the databases, or a
`SAVE` that copies the databases at one time, writes the copies at a later one
and fails at the given statements. -/
inductive ServiceEvent (n : ℕ)
  | client (now : UInt64) (idx : Fin n) (call : Call)
  | save (now later : UInt64) (faults : ℕ → Fault)

namespace Service

/-- The start of `run`: the tables are loaded into new databases, and what the
load reports is dropped. -/
def start (n : ℕ) (stored : Tables) (faults : ℕ → Fault) : Service n :=
  let loaded := (load fun _ : Fin n => Db.empty).run (Statement.execAt faults)
    (⟨stored, none⟩, 0)
  ⟨loaded.1.2, loaded.2.1⟩

/-- The copies that `snapshot_dbs_for_persistence` makes. -/
def copies (service : Service n) (now : UInt64) : Dbs n :=
  fun idx => (service.dbs idx).copyAt now

/-- `SAVE`: what it reports and what it leaves. -/
def save (service : Service n) (now later : UInt64) (faults : ℕ → Fault) :
    Fallible Unit × Service n :=
  let saved := (snapshot later (service.copies now)).run
    (Statement.execAt faults) (service.connection, 0)
  (saved.1, ⟨fun idx => (service.dbs idx).afterCopy now, saved.2.1⟩)

/-- One event. -/
def step (service : Service n) : ServiceEvent n → Service n
  | .client now idx call =>
      { service with
        dbs := Function.update service.dbs idx (call.exec now (service.dbs idx)).2 }
  | .save now later faults => (service.save now later faults).2

/-- A `SAVE` that reports a result. -/
def Reports (result : Fallible Unit) (service : Service n) : ServiceEvent n → Prop
  | .client .. => False
  | .save now later faults => (service.save now later faults).1 = result

/-- A `SAVE` at none of whose statements anything fails: no fault happens, and
no row violates a primary key. -/
def Faultless (service : Service n) : ServiceEvent n → Prop
  | .client .. => False
  | .save now later faults =>
      (∀ i, faults i = none) ∧
        (snapshotEffect later (service.copies now)
          service.connection.committed).isSome

/-- The event leaves a stored key alone: a client's call does not change what is
under the key, and at a `SAVE` the stored entry is not expired. -/
def LeavesAlone (stored : Tables) (cell : Cell) (service : Service n) :
    ServiceEvent n → Prop
  | .client now idx call =>
      cell.1 = (idx.val : Int) →
        (call.exec now (service.dbs idx)).2.lookup cell.2 =
          (service.dbs idx).lookup cell.2
  | .save now later _ =>
      ∀ entry, decode (stored.slice cell) = .ok (some entry) →
        entry.live now = true ∧ entry.live later = true

/-- If the key belongs to one of the databases, its stored entry has been
loaded. -/
def Loaded (stored : Tables) (service : Service n) (cell : Cell) : Prop :=
  ∀ idx : Fin n, cell.1 = (idx.val : Int) → ∃ entry,
    decode (stored.slice cell) = .ok (some entry) ∧
      (service.dbs idx).lookup cell.2 = some entry

end Service

/-- The key is still stored, with an agreeing entry. -/
def StillPersisted (stored after : Tables) (cell : Cell) : Prop :=
  (after.slice cell).kv.isSome ∧
    ∀ entry, decode (stored.slice cell) = .ok (some entry) →
      ∃ loaded, decode (after.slice cell) = .ok (some loaded) ∧
        EntryAgrees entry loaded

/-- Failures of the persistence do not destroy data in the run. -/
structure KeepsPersistedData
    (stored : Tables) (service : Service n) (events : List (ServiceEvent n)) :
    Prop where
  /-- A stored key that the run leaves alone is still persisted after every
  `SAVE` that reports success. -/
  survives : ∀ cell, (stored.slice cell).kv.isSome →
    Trace.Along Service.step (Service.LeavesAlone stored cell) service events →
    Trace.Along Service.step
      (fun before event => before.Reports (.ok ()) event →
        StillPersisted stored (before.step event).connection.committed cell)
      service events
  /-- A `SAVE` that reports an error leaves the tables as they were. -/
  unchanged : Trace.Along Service.step
    (fun before event => before.Reports (.error ()) event →
      (before.step event).connection.committed = before.connection.committed)
    service events
  /-- A `SAVE` at whose statements nothing fails reports success. -/
  succeeds : Trace.Along Service.step
    (fun before event => before.Faultless event → before.Reports (.ok ()) event)
    service events

namespace Service

/-- The three facts about one `SAVE`. -/
theorem save_spec (service : Service n) (now later : UInt64) (faults : ℕ → Fault) :
    ((service.save now later faults).1 = .ok () →
        service.connection.pending = none ∧
        SnapshotOf later (service.copies now) service.connection.committed
          (service.save now later faults).2.connection.committed) ∧
      ((service.save now later faults).1 = .error () →
        (service.save now later faults).2.connection.committed =
          service.connection.committed) ∧
      (service.Faultless (.save now later faults) →
        ((service.save now later faults).1 = .ok () ↔
          service.connection.pending = none)) := by
  obtain ⟨dbs, before, pending⟩ := service
  cases pending with
  | none =>
      obtain ⟨result, connection, tick, ran, sound, unchanged, complete⟩ :=
        snapshot_run faults later (copies ⟨dbs, before, none⟩ now) before 0
      have saved : save ⟨dbs, before, none⟩ now later faults =
          (result, ⟨fun idx => (dbs idx).afterCopy now, connection⟩) := by
        rw [save]
        dsimp only
        rw [ran]
      rw [saved]
      refine ⟨fun isOk => ⟨rfl, ?_⟩, unchanged, fun faultless => ?_⟩
      · obtain ⟨after, rfl, written⟩ := sound isOk
        exact (snapshotEffect_spec later _ before).2 after written
      · exact iff_of_true (complete faultless.1 faultless.2) rfl
  | some pending =>
      have saved : save ⟨dbs, before, some pending⟩ now later faults =
          (.error (), ⟨fun idx => (dbs idx).afterCopy now, before, some pending⟩) := by
        rw [save]
        dsimp only
        rw [snapshot_run_open]
      rw [saved]
      exact ⟨nofun, fun _ => rfl, fun _ => iff_of_false nofun nofun⟩

end Service

/-- Loading on a new connection leaves it alone, and a success loads every
stored key. -/
theorem start_spec
    (n : ℕ) {stored : Tables} (persisted : Persisted stored) (faults : ℕ → Fault) :
    (Service.start n stored faults).connection = ⟨stored, none⟩ ∧
      (((load fun _ : Fin n => Db.empty).run (Statement.execAt faults)
          (⟨stored, none⟩, 0)).1.1 = .ok () →
        ∀ cell, (stored.slice cell).kv.isSome →
          (Service.start n stored faults).Loaded stored cell) := by
  obtain ⟨result, dbs, tick, ran, sound, -⟩ :=
    load_run faults n ⟨stored, none⟩ 0
  have started : Service.start n stored faults = ⟨dbs, stored, none⟩ := by
    rw [Service.start, ran]
  rw [started, ran]
  refine ⟨rfl, fun isOk cell isStored idx own => ?_⟩
  obtain ⟨cellDb, key⟩ := cell
  obtain rfl : cellDb = (idx.val : Int) := own
  have decoded := sound isOk idx key
  obtain ⟨entry, found⟩ := Option.isSome_iff_exists.mp
    (isSome_of_decode (persisted.written _) isStored decoded)
  rw [found] at decoded
  exact ⟨entry, decoded, found⟩

theorem agrees_refl (value : Value) : value.agrees value := by
  cases value <;> first | exact fun _ => rfl | rfl

/-- What the server knows about a stored key that was loaded and left alone. -/
def Keeps (stored : Tables) (cell : Cell) (service : Service n) : Prop :=
  service.Loaded stored cell ∧
    ((∀ idx : Fin n, cell.1 ≠ (idx.val : Int)) →
      service.connection.committed.slice cell = stored.slice cell)

/-- A snapshot of a database in which the stored entry is live persists it. -/
theorem stillPersisted_of_visible
    {stored : Tables} (persisted : Persisted stored)
    {now : UInt64} {dbs : Dbs n} {before after : Tables}
    (snapshotOf : SnapshotOf now dbs before after)
    {idx : Fin n} {key : Bytes} {entry : Entry}
    (decoded : decode (stored.slice ((idx.val : Int), key)) = .ok (some entry))
    (visible : (dbs idx).visible now key = some entry) :
    StillPersisted stored after ((idx.val : Int), key) := by
  have atCell := decode_snapshotOf snapshotOf idx key
  rw [visible] at atCell
  obtain ⟨value, reloaded, agrees⟩ :=
    atCell.mpr (persistable_of_decode (persisted.written _) decoded)
  refine ⟨?_, fun other isOther => ?_⟩
  · rw [Option.isSome_iff_ne_none]
    intro missing
    rw [decode, missing] at reloaded
    cases reloaded
  · cases decoded.symm.trans isOther
    exact ⟨_, reloaded, rfl, agrees⟩

/-- Step lemma: an event that leaves the key alone keeps it loaded, and a
successful `SAVE` persists it. -/
theorem keeps_step
    {stored : Tables} (persisted : Persisted stored) {cell : Cell}
    (isStored : (stored.slice cell).kv.isSome)
    (service : Service n) (event : ServiceEvent n)
    (keeps : Keeps stored cell service)
    (alone : service.LeavesAlone stored cell event) :
    Keeps stored cell (service.step event) ∧
      (service.Reports (.ok ()) event →
        StillPersisted stored (service.step event).connection.committed cell) := by
  obtain ⟨loaded, foreign⟩ := keeps
  cases event with
  | client now idx call =>
      refine ⟨⟨fun other own => ?_, foreign⟩, nofun⟩
      obtain ⟨entry, decoded, found⟩ := loaded other own
      refine ⟨entry, decoded, ?_⟩
      by_cases same : other = idx
      · subst same
        rw [Service.step]
        dsimp only
        rw [Function.update_self]
        exact (alone own).trans found
      · rw [Service.step]
        dsimp only
        rw [Function.update_of_ne same]
        exact found
  | save now later faults =>
      obtain ⟨saveOk, saveError, -⟩ := service.save_spec now later faults
      have liveCopy : ∀ (idx : Fin n) (entry : Entry),
          decode (stored.slice cell) = .ok (some entry) →
          (service.dbs idx).lookup cell.2 = some entry →
          (service.dbs idx).visible now cell.2 = some entry ∧
            ((service.copies now) idx).visible later cell.2 = some entry := by
        intro idx entry decoded found
        obtain ⟨liveNow, liveLater⟩ := alone entry decoded
        have visible : (service.dbs idx).visible now cell.2 = some entry :=
          Option.filter_eq_some_iff.mpr ⟨found, liveNow⟩
        refine ⟨visible, Option.filter_eq_some_iff.mpr ⟨?_, liveLater⟩⟩
        exact ((service.dbs idx).lookup_copyAt now cell.2).trans visible
      refine ⟨⟨fun idx own => ?_, fun outside => ?_⟩, fun isOk => ?_⟩
      · obtain ⟨entry, decoded, found⟩ := loaded idx own
        exact ⟨entry, decoded,
          Db.lookup_afterCopy (liveCopy idx entry decoded found).1⟩
      · rw [← foreign outside]
        cases result : (service.save now later faults).1 with
        | ok => exact (saveOk result).2.foreign cell outside
        | error =>
            exact congrArg (fun tables => Tables.slice tables cell)
              (saveError result)
      · obtain ⟨-, snapshotOf⟩ := saveOk isOk
        by_cases own : ∃ idx : Fin n, cell.1 = (idx.val : Int)
        · obtain ⟨idx, isOwn⟩ := own
          obtain ⟨entry, decoded, found⟩ := loaded idx isOwn
          have visible := (liveCopy idx entry decoded found).2
          obtain ⟨cellDb, key⟩ := cell
          obtain rfl : cellDb = (idx.val : Int) := isOwn
          exact stillPersisted_of_visible persisted snapshotOf decoded visible
        · have sameSlice : (service.step
              (.save now later faults)).connection.committed.slice cell =
              stored.slice cell :=
            (snapshotOf.foreign cell fun idx same => own ⟨idx, same⟩).trans
              (foreign fun idx same => own ⟨idx, same⟩)
          rw [StillPersisted, sameSlice]
          exact ⟨isStored, fun entry decoded =>
            ⟨entry, decoded, rfl, agrees_refl _⟩⟩

/-- Failures of the persistence do not destroy data when every stored key that
the run leaves alone has been loaded at the start, and no transaction is open
before a `SAVE` at whose statements nothing fails. -/
theorem keepsPersistedData
    {stored : Tables} (persisted : Persisted stored) (faults : ℕ → Fault)
    (events : List (ServiceEvent n))
    (loaded : ∀ cell, (stored.slice cell).kv.isSome →
      Trace.Along Service.step (Service.LeavesAlone stored cell)
        (Service.start n stored faults) events →
      (Service.start n stored faults).Loaded stored cell)
    (closed : Trace.Along Service.step
      (fun before event => before.Faultless event →
        before.connection.pending = none)
      (Service.start n stored faults) events) :
    KeepsPersistedData stored (Service.start n stored faults) events where
  survives := by
    intro cell isStored alone
    obtain ⟨connection, -⟩ := start_spec n persisted faults
    refine Trace.along_of_invariant (Keeps stored cell)
      (keeps_step persisted isStored) ⟨loaded cell isStored alone, fun _ => ?_⟩ alone
    rw [connection]
  unchanged := by
    refine Trace.along_of_forall (fun before event reports => ?_) _ _
    cases event with
    | client now idx call => cases reports
    | save now later saveFaults =>
        exact (before.save_spec now later saveFaults).2.1 reports
  succeeds := by
    refine Trace.along_of_invariant (fun _ => True)
      (fun before event _ noneOpen => ⟨trivial, fun faultless => ?_⟩) trivial closed
    cases event with
    | client now idx call => cases faultless
    | save now later saveFaults =>
        exact ((before.save_spec now later saveFaults).2.2 faultless).mpr
          (noneOpen faultless)

/-- One database with one key. -/
def oneKey : Dbs 1 := fun _ => (Db.empty.access (asBytes "k") (Shard.set (.int 1) none)).2

theorem visible_oneKey (now : UInt64) (idx : Fin 1) (key : Bytes) :
    (oneKey idx).visible now key =
      if asBytes "k" = key then some ⟨.int 1, none⟩ else none := by
  rw [Db.visible, oneKey, Db.lookup_access, Db.lookup_empty]
  split <;> rfl

/-- The one key can be persisted. -/
theorem persisted_oneKey :
    ∃ stored, Persisted stored ∧ SnapshotOf 0 oneKey Tables.empty stored := by
  obtain ⟨possible, effect⟩ := snapshotEffect_spec 0 oneKey Tables.empty
  have isSome : (snapshotEffect 0 oneKey Tables.empty).isSome := by
    refine possible.mpr fun idx key value exp visible => ?_
    rw [visible_oneKey] at visible
    split at visible
    · cases visible
      rfl
    · cases visible
  obtain ⟨stored, written⟩ := Option.isSome_iff_exists.mp isSome
  exact ⟨stored, .saved .new written, effect stored written⟩

theorem decode_oneKey
    {stored : Tables} (snapshotOf : SnapshotOf 0 oneKey Tables.empty stored) :
    decode (stored.slice (0, asBytes "k")) =
      .ok (some ⟨.string (writeI64Bytes 1), none⟩) := by
  have encoded := snapshotOf.live 0 (asBytes "k") (.int 1) none
    ((visible_oneKey 0 0 (asBytes "k")).trans (if_pos rfl))
  rw [applySlices_writesOf] at encoded
  have written : stored.slice (((0 : Fin 1).val : Int), asBytes "k") =
      { Tables.empty.slice (((0 : Fin 1).val : Int), asBytes "k") with
        kv := some ⟨0, some (writeI64Bytes 1), none⟩ } :=
    (Option.some.inj encoded).symm
  exact congrArg decode written

/-- The query for the stored keys fails at once. -/
def queryFails : ℕ → Fault := fun tick => if tick = 0 then some 0 else none

/-- Failures can destroy data: after a load whose query fails, the first `SAVE`
deletes the stored key. -/
theorem not_always_keepsPersistedData :
    ¬∀ (n : ℕ) (stored : Tables), Persisted stored →
      ∀ (faults : ℕ → Fault) (events : List (ServiceEvent n)),
        KeepsPersistedData stored (Service.start n stored faults) events := by
  intro always
  obtain ⟨stored, persisted, snapshotOf⟩ := persisted_oneKey
  obtain ⟨survives, -, succeeds⟩ := always 1 stored persisted queryFails
    [.save 0 0 noFaults]
  have started : Service.start 1 stored queryFails =
      ⟨fun _ => Db.empty, stored, none⟩ := rfl
  rw [started] at survives succeeds
  have invisible : ∀ (idx : Fin 1) (key : Bytes),
      ((Service.copies ⟨fun _ : Fin 1 => Db.empty, stored, none⟩ 0) idx).visible
        0 key = none := by
    intro idx key
    rw [Db.visible, Service.copies, Db.lookup_copyAt, Db.visible, Db.lookup_empty]
    rfl
  have possible : (snapshotEffect 0
      (Service.copies ⟨fun _ : Fin 1 => Db.empty, stored, none⟩ 0) stored).isSome := by
    refine (snapshotEffect_spec 0 _ stored).1.mpr fun idx key value exp visible => ?_
    rw [invisible] at visible
    cases visible
  have isOk := succeeds.1 ⟨fun _ => rfl, possible⟩
  have decoded := decode_oneKey snapshotOf
  have isStored : (stored.slice (0, asBytes "k")).kv.isSome := by
    rw [Option.isSome_iff_ne_none]
    intro missing
    rw [decode, missing] at decoded
    cases decoded
  have noExpiry : ∀ entry,
      decode (stored.slice (0, asBytes "k")) = .ok (some entry) →
      entry.live 0 = true ∧ entry.live 0 = true := by
    intro entry isEntry
    cases decoded.symm.trans isEntry
    exact ⟨rfl, rfl⟩
  have still := (survives (0, asBytes "k") isStored ⟨noExpiry, trivial⟩).1 isOk
  obtain ⟨-, saved⟩ := (Service.save_spec _ 0 0 noFaults).1 isOk
  have gone := saved.stale 0 (asBytes "k") (invisible 0 _)
  have notStored := still.1
  rw [Service.step] at notStored
  have same := Option.isSome_iff_ne_none.mp notStored
  exact same gone

/-- A load without failures, a client's call on another key and a `SAVE`. -/
theorem keepsPersistedData_oneKey :
    ∃ stored, (stored.slice (0, asBytes "k")).kv.isSome ∧
      KeepsPersistedData stored (Service.start 1 stored noFaults)
        [.client 0 0 (.entry (asBytes "other") (.set (.int 2) none)),
          .save 0 0 noFaults] := by
  obtain ⟨stored, persisted, snapshotOf⟩ := persisted_oneKey
  have readable : ∀ (idx : Fin 1) (key : Bytes), ∃ entry,
      decode (stored.slice ((idx.val : Int), key)) = .ok entry := by
    intro idx key
    have atCell := decode_snapshotOf snapshotOf idx key
    have visible := visible_oneKey 0 idx key
    by_cases own : asBytes "k" = key
    · rw [visible, if_pos own] at atCell
      obtain ⟨loaded, decoded, -⟩ := atCell.mpr trivial
      exact ⟨_, decoded⟩
    · rw [visible, if_neg own] at atCell
      exact ⟨none, atCell⟩
  have loadOk : ((load fun _ : Fin 1 => Db.empty).run (Statement.execAt noFaults)
      (⟨stored, none⟩, 0)).1.1 = .ok () := by
    obtain ⟨result, dbs, tick, ran, -, complete⟩ :=
      load_run noFaults 1 ⟨stored, none⟩ 0
    rw [ran]
    exact complete (fun _ => rfl) readable
  obtain ⟨connection, loaded⟩ := start_spec 1 persisted noFaults
  refine ⟨stored, ?_, keepsPersistedData persisted noFaults _
    (fun cell isStored _ => loaded loadOk cell isStored) ⟨nofun, fun _ => ?_, trivial⟩⟩
  · rw [Option.isSome_iff_ne_none]
    intro missing
    have decoded := decode_oneKey snapshotOf
    rw [decode, missing] at decoded
    cases decoded
  · exact congrArg Connection.pending connection

end LibsqlPersist
end Cache
end MuonJs
