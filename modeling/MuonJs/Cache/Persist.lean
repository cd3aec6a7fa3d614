import MuonJs.Cache.Expiry
import MuonJs.Cache.Sql

/-!
# Snapshot and load

`LibsqlPersist::snapshot` upserts every live entry inside one transaction and
then deletes the keys that are no longer live; `LibsqlPersist::load` reads the
tables back into databases.  Both are programs over the statements of a
connection, so that any statement can fail.
-/

namespace MuonJs
namespace Cache

/-- The databases of a server (`DbsState`). -/
abbrev Dbs (n : ℕ) := Fin n → Db

/-- One item of `Db::snapshot_items`: key, value and expiry. -/
abbrev Item := Bytes × Value × Option UInt64

namespace LibsqlPersist

/-- A program over the statements of the persistence connection. -/
abbrev Session (α : Type) := Program Statement.signature α

/-! ## Snapshot -/

/-- The writes of `snapshot_inner` for one item. -/
def writesOf (cell : Cell) (value : Value) (exp : Option UInt64) : List Write :=
  let expValue := exp.map UInt64.toInt64
  match value with
  | .string bytes => [.replaceKv cell ⟨0, some bytes, expValue⟩]
  | .int n => [.replaceKv cell ⟨0, some (writeI64Bytes n), expValue⟩]
  | .list items =>
      .replaceKv cell ⟨1, some [], expValue⟩ :: .deleteItems .listItems cell ::
        items.zipIdx.map fun (item, i) => .insertList cell i item
  | .set items =>
      .replaceKv cell ⟨2, some [], expValue⟩ :: .deleteItems .setItems cell ::
        items.toList.map fun item => .insertSet cell item
  | .hash items =>
      .replaceKv cell ⟨3, some [], expValue⟩ :: .deleteItems .hashItems cell ::
        items.iter.map fun (field, val) => .insertHash cell field val
  | .zset items =>
      .replaceKv cell ⟨4, some [], expValue⟩ :: .deleteItems .zsetItems cell ::
        items.toList.map fun (member, score) => .insertZset cell member score
  | .stream items =>
      .replaceKv cell ⟨5, some [], expValue⟩ ::
        .deleteItems .streamEntries cell ::
        items.flatMap fun (entryId, fields) =>
          fields.zipIdx.map fun ((field, val), fieldIdx) =>
            .insertStream cell (asBytes entryId) fieldIdx field val

/-- The writes of `snapshot_inner` for one stale key. -/
def staleWrites (cell : Cell) : List Write :=
  [.deleteKv cell, .deleteItems .listItems cell, .deleteItems .setItems cell,
    .deleteItems .hashItems cell, .deleteItems .zsetItems cell,
    .deleteItems .streamEntries cell]

/-- Execute writes one after the other, up to the first error. -/
def executeAll : List Write → Session (Fallible Unit)
  | [] => return .ok ()
  | write :: writes =>
      Program.andThen (Statement.perform (.execute write)) fun () =>
        executeAll writes

/-- What `Db::snapshot_items` returns at a clock reading. -/
def itemsAt (now : UInt64) (db : Db) : List Item :=
  (Db.snapshotItems.run (Call.exec now) db).1

/-- The upserts of `snapshot_inner`, cell by cell. -/
def upserts (now : UInt64) (dbs : Dbs n) : List (Cell × List Write) :=
  (List.finRange n).flatMap fun idx =>
    (itemsAt now (dbs idx)).map fun (key, value, exp) =>
      (((idx.val : Int), key), writesOf ((idx.val : Int), key) value exp)

/-- Delete the stored keys of one database that are not live. -/
def deleteStale (db : Int) (live : List Bytes) : Session (Fallible Unit) := do
  let cursor ← Statement.perform (.selectKeys db)
  if cursor.failed then return .error ()
  else
    executeAll ((cursor.rows.filter fun key => key ∉ live).flatMap fun key =>
      staleWrites (db, key))

/-- The second loop of `snapshot_inner`, over the databases. -/
def deleteAllStale (now : UInt64) (dbs : Dbs n) :
    List (Fin n) → Session (Fallible Unit)
  | [] => return .ok ()
  | idx :: indices =>
      Program.andThen
        (deleteStale idx.val ((itemsAt now (dbs idx)).map Prod.fst)) fun () =>
        deleteAllStale now dbs indices

/-- `LibsqlPersist::snapshot_inner`. -/
def snapshotInner (now : UInt64) (dbs : Dbs n) : Session (Fallible Unit) :=
  Program.andThen (executeAll ((upserts now dbs).flatMap Prod.snd)) fun () =>
    deleteAllStale now dbs (List.finRange n)

/-- `LibsqlPersist::snapshot`: an error inside the transaction rolls it back, a
failed `COMMIT` does not. -/
def snapshot (now : UInt64) (dbs : Dbs n) : Session (Fallible Unit) :=
  Program.andThen (Statement.perform .beginTransaction) fun () => do
    match ← snapshotInner now dbs with
    | .error () =>
        let _ ← Statement.perform .rollback
        return .error ()
    | .ok () => Statement.perform .commit

/-! ## Load -/

/-- `load_list`. -/
def loadList (cell : Cell) : Session (Fallible (List Bytes)) := do
  let cursor ← Statement.perform (.selectList cell)
  return if cursor.failed then .error () else .ok (cursor.rows.map Prod.snd)

/-- `load_set`. -/
def loadSet (cell : Cell) : Session (Fallible ByteSet) := do
  let cursor ← Statement.perform (.selectSet cell)
  return if cursor.failed then .error ()
    else .ok ((∅ : ByteSet).insertMany cursor.rows)

/-- Collect pairs into a map. -/
def collectMap (rows : List (Bytes × α)) : ByteMap α :=
  rows.foldl (fun map row => map.insert row.1 row.2) ∅

/-- `load_hash`. -/
def loadHash (cell : Cell) : Session (Fallible HashStore) := do
  let cursor ← Statement.perform (.selectHash cell)
  return if cursor.failed then .error () else .ok (.map (collectMap cursor.rows))

/-- The score of a row: reading NULL as `f64` is an error. -/
def readScore (row : Bytes × Option SqlReal) : Fallible (Bytes × F64) :=
  match row.2 with
  | some score => .ok (row.1, score.1)
  | none => .error ()

/-- `load_zset`. -/
def loadZset (cell : Cell) : Session (Fallible (ByteMap F64)) := do
  let cursor ← Statement.perform (.selectZset cell)
  return if cursor.failed then .error ()
    else (cursor.rows.mapM readScore).map collectMap

/-- The ID of an entry row. -/
def decodeId (bytes : Bytes) : String :=
  (fromUtf8 bytes).getD (fromUtf8Lossy bytes)

/-- The loop of `load_stream`: rows with the same ID in a row are one entry. -/
def groupEntries (out : List StreamEntry) (currentId : Option String)
    (currentFields : List (Bytes × Bytes)) :
    List ((Bytes × Int) × Bytes × Bytes) → List StreamEntry
  | [] =>
      match currentId with
      | some prevId => out ++ [(prevId, currentFields)]
      | none => out
  | row :: rows =>
      let entryId := decodeId row.1.1
      if currentId ≠ some entryId then
        match currentId with
        | some prevId =>
            groupEntries (out ++ [(prevId, currentFields)]) (some entryId)
              [row.2] rows
        | none =>
            groupEntries out (some entryId) (currentFields ++ [row.2]) rows
      else groupEntries out currentId (currentFields ++ [row.2]) rows

/-- `load_stream`. -/
def loadStream (cell : Cell) : Session (Fallible (List StreamEntry)) := do
  let cursor ← Statement.perform (.selectStream cell)
  return if cursor.failed then .error ()
    else .ok (groupEntries [] none [] cursor.rows)

/-- The value of a `kv` row; a row of an unknown type is skipped. -/
def loadValue (cell : Cell) (row : KvRow) : Session (Fallible (Option Value)) :=
  if row.type = 0 then
    return .ok (some (.string (row.value.getD [])))
  else if row.type = 1 then
    return (← loadList cell).map fun items => some (.list items)
  else if row.type = 2 then
    return (← loadSet cell).map fun items => some (.set items)
  else if row.type = 3 then
    return (← loadHash cell).map fun items => some (.hash items)
  else if row.type = 4 then
    return (← loadZset cell).map fun items => some (.zset items)
  else if row.type = 5 then
    return (← loadStream cell).map fun items => some (.stream items)
  else return .ok none

/-- `dbs.get(db_idx as usize)`. -/
def dbOf (n : ℕ) (dbIdx : Int) : Option (Fin n) :=
  if inRange : 0 ≤ dbIdx ∧ dbIdx.toNat < n then some ⟨dbIdx.toNat, inRange.2⟩
  else none

/-- Put an entry into one of the databases. -/
def Dbs.set (dbs : Dbs n) (idx : Fin n) (key : Bytes) (value : Value)
    (exp : Option UInt64) : Dbs n :=
  Function.update dbs idx ((dbs idx).access key (Shard.set value exp)).2

/-- The loop of `load` over the rows of `kv`. -/
def loadRows (failed : Bool) (dbs : Dbs n) :
    List (Cell × KvRow) → Session (Fallible Unit × Dbs n)
  | [] => return (if failed then .error () else .ok (), dbs)
  | (cell, row) :: rows =>
      match dbOf n cell.1 with
      | none => loadRows failed dbs rows
      | some idx => do
          match ← loadValue cell row with
          | .error () => return (.error (), dbs)
          | .ok none => loadRows failed dbs rows
          | .ok (some value) =>
              loadRows failed
                (Dbs.set dbs idx cell.2 value
                  (row.expiresAtMs.map Int64.toUInt64)) rows

/-- `LibsqlPersist::load`: the databases keep what was loaded before an
error. -/
def load (dbs : Dbs n) : Session (Fallible Unit × Dbs n) := do
  let cursor ← Statement.perform .selectKv
  loadRows cursor.failed dbs cursor.rows

/-! ## The items of a snapshot -/

/-- Purging shard after shard answers each shard from its own entries. -/
theorem shardsInTurn_run
    (op : ShardOp) (purges : op ≠ .flush) (now : UInt64)
    (indices : List (Fin numShards)) (db original : Db)
    (same : db.purge now = original.purge now) :
    ((Db.shardsInTurn op indices).run (Call.exec now) db).1 =
      indices.map fun index => op.result now ((original.purge now).shards index) := by
  induction indices generalizing db with
  | nil => rfl
  | cons index indices ih =>
      have ownResult : op.result now (db.shards index) =
          op.result now ((original.purge now).shards index) := by
        rw [← same]
        have settled : Shard.purgeExpiredAll now ((db.purge now).shards index) =
            Shard.purgeExpiredAll now (db.shards index) :=
          Shard.purgeExpiredAll_purge now _
        cases op with
        | flush => exact absurd rfl purges
        | purgeExpiredAll => rfl
        | snapshotItems | len | keys | keysMatching => simp only [ShardOp.result, settled]
      have stillSame : (op.effect now index db).purge now =
          original.purge now := by
        rw [← same]
        cases op with
        | flush => exact absurd rfl purges
        | _ => exact Call.purge_purgeShard db now index
      rw [Db.shardsInTurn_cons]
      simp only [Program.run_call, Program.run_bind, Program.run_pure,
        List.map_cons]
      exact congrArg₂ List.cons ownResult (ih _ stillSame)

theorem shard_items_keys (data : ByteMap Entry) :
    (Shard.items data).map Prod.fst = data.keys := by
  rw [Shard.items, List.map_map, ← Std.ExtTreeMap.map_fst_toList_eq_keys]
  rfl

/-- The items of all shards are the entries. -/
theorem mem_shard_items
    (db : Db) (key : Bytes) (value : Value) (exp : Option UInt64) :
    (key, value, exp) ∈ ((List.finRange numShards).flatMap fun index =>
        Shard.items (db.shards index)) ↔
      db.lookup key = some ⟨value, exp⟩ := by
  rw [List.mem_flatMap]
  constructor
  · rintro ⟨index, -, present⟩
    obtain ⟨⟨itemKey, entry⟩, stored, same⟩ := List.mem_map.mp present
    rw [Std.ExtTreeMap.mem_toList_iff_getElem?_eq_some,
      Db.shards_getElem?] at stored
    cases same
    split at stored
    · exact stored
    · cases stored
  · intro stored
    refine ⟨shardIndex key, List.mem_finRange _, ?_⟩
    refine List.mem_map.mpr ⟨(key, ⟨value, exp⟩), ?_, rfl⟩
    rw [Std.ExtTreeMap.mem_toList_iff_getElem?_eq_some, Db.shards_getElem?,
      if_pos rfl, stored]

/-- Every key occurs once among the items of all shards. -/
theorem shard_items_distinct (db : Db) :
    (((List.finRange numShards).flatMap fun index =>
      Shard.items (db.shards index)).map Prod.fst).Nodup := by
  rw [List.map_flatMap]
  simp only [shard_items_keys]
  apply List.nodup_flatMap.mpr
  refine ⟨fun index _ => Std.ExtTreeMap.nodup_keys, ?_⟩
  refine (List.nodup_finRange numShards).imp fun different key first second => ?_
  rw [Std.ExtTreeMap.mem_keys] at first second
  exact different ((db.placed _ key first).symm.trans (db.placed _ key second))

/-- The items are those of the shards in turn, after a purge. -/
theorem itemsAt_eq (now : UInt64) (db : Db) :
    itemsAt now db = (List.finRange numShards).flatMap fun index =>
      Shard.items ((db.purge now).shards index) := by
  have results := shardsInTurn_run .snapshotItems nofun now
    (List.finRange numShards) db db rfl
  unfold itemsAt Db.snapshotItems Db.eachShard
  rw [Program.run_bind, results, List.flatMap_def]
  simp only [Program.pure_eq, Program.run_pure, ShardOp.result]
  congr 2
  funext index
  exact congrArg Shard.items (Shard.purgeExpiredAll_purge now (db.shards index))

/-- The items are the live entries. -/
theorem mem_itemsAt
    (now : UInt64) (db : Db) (key : Bytes) (value : Value) (exp : Option UInt64) :
    (key, value, exp) ∈ itemsAt now db ↔
      db.visible now key = some ⟨value, exp⟩ := by
  rw [itemsAt_eq, mem_shard_items, Db.lookup_purge, Db.visible]

/-- Every key occurs once among the items. -/
theorem itemsAt_distinct (now : UInt64) (db : Db) :
    ((itemsAt now db).map Prod.fst).Nodup := by
  rw [itemsAt_eq]
  exact shard_items_distinct (db.purge now)

/-- The keys of the items are those with a live entry. -/
theorem mem_itemsAt_keys (now : UInt64) (db : Db) (key : Bytes) :
    key ∈ (itemsAt now db).map Prod.fst ↔ (db.visible now key).isSome := by
  rw [List.mem_map, Option.isSome_iff_exists]
  constructor
  · rintro ⟨⟨itemKey, value, exp⟩, present, rfl⟩
    exact ⟨_, (mem_itemsAt now db itemKey value exp).mp present⟩
  · rintro ⟨⟨value, exp⟩, visible⟩
    exact ⟨_, (mem_itemsAt now db key value exp).mpr visible, rfl⟩

/-! ## What a snapshot does to the tables -/

/-- The slice of a cell that no table holds anything for. -/
def emptySlice : Slice := ⟨none, [], [], [], [], []⟩

/-- The stored keys of a database that are not live. -/
def staleOf (db : Int) (live : List Bytes) (tables : Tables) : List Bytes :=
  ((tables.kv.rows.map Prod.fst).filterMap fun cell =>
    if cell.1 = db then some cell.2 else none).filter fun key => key ∉ live

/-- The effect of `deleteStale` on the tables. -/
def deleteStaleEffect (db : Int) (live : List Bytes) (tables : Tables) :
    Option Tables :=
  Write.applyAll tables ((staleOf db live tables).flatMap fun key =>
    staleWrites (db, key))

/-- The effect of `deleteAllStale` on the tables. -/
def deleteAllStaleEffect (now : UInt64) (dbs : Dbs n) :
    List (Fin n) → Tables → Option Tables
  | [], tables => some tables
  | idx :: indices, tables =>
      (deleteStaleEffect idx.val ((itemsAt now (dbs idx)).map Prod.fst)
        tables).bind (deleteAllStaleEffect now dbs indices)

/-- The effect of `snapshotInner` on the tables. -/
def snapshotEffect (now : UInt64) (dbs : Dbs n) (tables : Tables) :
    Option Tables :=
  (Write.applyAll tables ((upserts now dbs).flatMap Prod.snd)).bind
    (deleteAllStaleEffect now dbs (List.finRange n))

theorem mem_staleOf
    (db : Int) (live : List Bytes) (tables : Tables) (key : Bytes) :
    key ∈ staleOf db live tables ↔
      (tables.slice (db, key)).kv.isSome ∧ key ∉ live := by
  have stored : (tables.slice (db, key)).kv.isSome ↔
      (db, key) ∈ tables.kv.rows.map Prod.fst := by
    rw [Option.isSome_iff_ne_none, ne_eq, Tables.slice,
      Table.find_eq_none_iff, not_not]
  rw [staleOf, List.mem_filter, List.mem_filterMap, stored]
  simp only [decide_eq_true_eq]
  refine and_congr_left fun _ => ?_
  constructor
  · rintro ⟨⟨cellDb, cellKey⟩, present, selected⟩
    split at selected
    · rename_i own
      cases selected
      cases own
      exact present
    · cases selected
  · intro present
    exact ⟨_, present, if_pos rfl⟩

theorem staleOf_distinct
    (db : Int) (live : List Bytes) (tables : Tables) :
    (staleOf db live tables).Nodup := by
  apply List.Nodup.filter
  apply tables.kv.distinct.filterMap
  intro first second key firstSelected secondSelected
  simp only [Option.mem_def, Option.ite_none_right_eq_some,
    Option.some.injEq] at firstSelected secondSelected
  exact Prod.ext (firstSelected.1.trans secondSelected.1.symm)
    (firstSelected.2.trans secondSelected.2.symm)

/-- Deleting stale keys succeeds, empties their cells and touches no other. -/
theorem deleteStaleEffect_slice (db : Int) (live : List Bytes) (tables : Tables) :
    ∃ after, deleteStaleEffect db live tables = some after ∧
      ∀ cell, after.slice cell =
        if cell.1 = db ∧ (tables.slice cell).kv.isSome ∧ cell.2 ∉ live then
          emptySlice
        else tables.slice cell := by
  let jobs : List (Cell × List Write) := (staleOf db live tables).map fun key =>
    ((db, key), staleWrites (db, key))
  have jobCells : jobs.map Prod.fst =
      (staleOf db live tables).map fun key => (db, key) := by
    simp [jobs, Function.comp_def]
  have sameWrites : jobs.flatMap Prod.snd =
      (staleOf db live tables).flatMap fun key => staleWrites (db, key) := by
    simp [jobs, List.flatMap_map]
  have distinct : (jobs.map Prod.fst).Nodup := by
    rw [jobCells]
    exact (staleOf_distinct db live tables).map fun first second same =>
      (Prod.ext_iff.mp same).2
  have ownCell : ∀ job ∈ jobs, ∀ write ∈ job.2, write.cell = job.1 := by
    intro job jobMem write writeMem
    obtain ⟨key, -, rfl⟩ := List.mem_map.mp jobMem
    simp only [staleWrites, List.mem_cons, List.not_mem_nil, or_false] at writeMem
    rcases writeMem with rfl | rfl | rfl | rfl | rfl | rfl <;> rfl
  have empties : ∀ job ∈ jobs,
      Write.applySlices (tables.slice job.1) job.2 = some emptySlice := by
    intro job jobMem
    obtain ⟨key, -, rfl⟩ := List.mem_map.mp jobMem
    rfl
  obtain ⟨succeeds, effects⟩ := Write.applyAll_jobs jobs distinct ownCell tables
  obtain ⟨after, applied⟩ := Option.isSome_iff_exists.mp
    (succeeds.mpr fun job jobMem => by rw [empties job jobMem]; rfl)
  obtain ⟨jobEffects, elsewhere⟩ := effects after applied
  rw [sameWrites] at applied
  refine ⟨after, applied, fun cell => ?_⟩
  obtain ⟨cellDb, key⟩ := cell
  split
  case isTrue stale =>
    obtain ⟨rfl, stored, notLive⟩ := stale
    have isJob : ((cellDb, key), staleWrites (cellDb, key)) ∈ jobs :=
      List.mem_map.mpr ⟨key,
        (mem_staleOf cellDb live tables key).mpr ⟨stored, notLive⟩, rfl⟩
    have effect := jobEffects _ isJob
    rw [empties _ isJob] at effect
    exact (Option.some.inj effect).symm
  case isFalse kept =>
    refine elsewhere _ fun cellMem => kept ?_
    rw [jobCells] at cellMem
    obtain ⟨staleKey, staleMem, same⟩ := List.mem_map.mp cellMem
    cases same
    exact ⟨rfl, (mem_staleOf _ live tables _).mp staleMem⟩

/-- Deleting the stale keys of several databases. -/
theorem deleteAllStaleEffect_slice
    (now : UInt64) (dbs : Dbs n) (indices : List (Fin n)) (tables : Tables) :
    ∃ after, deleteAllStaleEffect now dbs indices tables = some after ∧
      (∀ idx ∈ indices, ∀ key, (dbs idx).visible now key = none →
        (after.slice ((idx.val : Int), key)).kv = none) ∧
      (∀ cell, after.slice cell = tables.slice cell ∨
        after.slice cell = emptySlice) ∧
      ∀ cell, (∀ idx ∈ indices, cell.1 = (idx.val : Int) →
          ((dbs idx).visible now cell.2).isSome) →
        after.slice cell = tables.slice cell := by
  induction indices generalizing tables with
  | nil => exact ⟨tables, rfl, nofun, fun _ => .inl rfl, fun _ _ => rfl⟩
  | cons idx indices ih =>
      obtain ⟨next, deleted, nextSlice⟩ := deleteStaleEffect_slice idx.val
        ((itemsAt now (dbs idx)).map Prod.fst) tables
      obtain ⟨after, restDeleted, restGone, restSwept, restKept⟩ := ih next
      refine ⟨after, ?_, ?_, ?_, ?_⟩
      · rw [deleteAllStaleEffect, deleted]
        exact restDeleted
      · intro other otherMem key invisible
        rcases List.mem_cons.mp otherMem with rfl | restMem
        · by_cases again : other ∈ indices
          · exact restGone other again key invisible
          · rw [restKept _ fun idx idxMem same => by
              have sameIdx : other = idx := Fin.ext (Int.ofNat.inj same)
              exact absurd (sameIdx ▸ idxMem) again]
            rw [nextSlice]
            split
            case isTrue stale => rfl
            case isFalse kept =>
              rw [mem_itemsAt_keys, invisible] at kept
              simpa using kept
        · exact restGone other restMem key invisible
      · intro cell
        rcases restSwept cell with kept | emptied
        · rw [kept, nextSlice]
          split
          · exact .inr rfl
          · exact .inl rfl
        · exact .inr emptied
      · intro cell isLive
        rw [restKept cell fun other otherMem =>
            isLive other (List.mem_cons_of_mem _ otherMem),
          nextSlice, if_neg]
        rintro ⟨sameDb, -, notLive⟩
        exact notLive ((mem_itemsAt_keys now (dbs idx) cell.2).mpr
          (isLive idx List.mem_cons_self sameDb))

/-- What a successful snapshot leaves in the tables. -/
structure SnapshotOf (now : UInt64) (dbs : Dbs n) (before after : Tables) :
    Prop where
  /-- Every live entry has been written over what its cell held. -/
  live : ∀ (idx : Fin n) (key : Bytes) (value : Value) (exp : Option UInt64),
    (dbs idx).visible now key = some ⟨value, exp⟩ →
      Write.applySlices (before.slice ((idx.val : Int), key))
          (writesOf ((idx.val : Int), key) value exp) =
        some (after.slice ((idx.val : Int), key))
  /-- No other key of the databases is stored. -/
  stale : ∀ (idx : Fin n) (key : Bytes), (dbs idx).visible now key = none →
    (after.slice ((idx.val : Int), key)).kv = none
  /-- What is not live is as it was, or gone from all tables. -/
  swept : ∀ (idx : Fin n) (key : Bytes), (dbs idx).visible now key = none →
    after.slice ((idx.val : Int), key) = before.slice ((idx.val : Int), key) ∨
      after.slice ((idx.val : Int), key) = emptySlice
  /-- The keys of other database numbers are as they were. -/
  foreign : ∀ cell : Cell, (∀ idx : Fin n, cell.1 ≠ (idx.val : Int)) →
    after.slice cell = before.slice cell

/-- The writes for an item concern its own cell. -/
theorem writesOf_cell
    (cell : Cell) (value : Value) (exp : Option UInt64) :
    ∀ write ∈ writesOf cell value exp, write.cell = cell := by
  intro write writeMem
  cases value with
  | string | int =>
      rw [writesOf, List.mem_singleton] at writeMem
      exact writeMem ▸ rfl
  | list | set | hash | zset =>
      simp only [writesOf, List.mem_cons, List.mem_map] at writeMem
      rcases writeMem with rfl | rfl | ⟨item, -, rfl⟩ <;> rfl
  | stream items =>
      simp only [writesOf, List.mem_cons, List.mem_flatMap, List.mem_map]
        at writeMem
      rcases writeMem with rfl | rfl | ⟨entry, -, field, -, rfl⟩ <;> rfl

theorem mem_upserts
    (now : UInt64) (dbs : Dbs n) (job : Cell × List Write) :
    job ∈ upserts now dbs ↔
      ∃ (idx : Fin n) (key : Bytes) (value : Value) (exp : Option UInt64),
        (dbs idx).visible now key = some ⟨value, exp⟩ ∧
          job = (((idx.val : Int), key),
            writesOf ((idx.val : Int), key) value exp) := by
  simp only [upserts, List.mem_flatMap, List.mem_finRange, true_and,
    List.mem_map, Prod.exists, mem_itemsAt]
  constructor
  · rintro ⟨idx, key, value, exp, visible, rfl⟩
    exact ⟨idx, key, value, exp, visible, rfl⟩
  · rintro ⟨idx, key, value, exp, visible, rfl⟩
    exact ⟨idx, key, value, exp, visible, rfl⟩

theorem upserts_distinct (now : UInt64) (dbs : Dbs n) :
    ((upserts now dbs).map Prod.fst).Nodup := by
  rw [upserts, List.map_flatMap]
  apply List.nodup_flatMap.mpr
  constructor
  · intro idx _
    have cells : ((itemsAt now (dbs idx)).map fun (key, value, exp) =>
        ((((idx.val : Int), key), writesOf ((idx.val : Int), key) value exp) :
          Cell × List Write)).map Prod.fst =
        ((itemsAt now (dbs idx)).map Prod.fst).map fun key =>
          ((idx.val : Int), key) := by
      simp [Function.comp_def]
    rw [cells]
    exact (itemsAt_distinct now (dbs idx)).map fun first second same =>
      (Prod.ext_iff.mp same).2
  · refine (List.nodup_finRange n).imp fun different cell first second => ?_
    obtain ⟨_, firstMem, rfl⟩ := List.mem_map.mp first
    obtain ⟨firstItem, -, rfl⟩ := List.mem_map.mp firstMem
    obtain ⟨_, secondMem, same⟩ := List.mem_map.mp second
    obtain ⟨secondItem, -, rfl⟩ := List.mem_map.mp secondMem
    exact different (Fin.ext (Int.ofNat.inj (Prod.ext_iff.mp same).1.symm))

/-- A snapshot can be written exactly when every live entry can be written into
its own cell, and then it leaves what `SnapshotOf` says. -/
theorem snapshotEffect_spec (now : UInt64) (dbs : Dbs n) (before : Tables) :
    ((snapshotEffect now dbs before).isSome ↔
        ∀ (idx : Fin n) (key : Bytes) (value : Value) (exp : Option UInt64),
          (dbs idx).visible now key = some ⟨value, exp⟩ →
            (Write.applySlices (before.slice ((idx.val : Int), key))
              (writesOf ((idx.val : Int), key) value exp)).isSome) ∧
      ∀ after, snapshotEffect now dbs before = some after →
        SnapshotOf now dbs before after := by
  have ownCell : ∀ job ∈ upserts now dbs, ∀ write ∈ job.2,
      write.cell = job.1 := by
    intro job jobMem
    obtain ⟨idx, key, value, exp, -, rfl⟩ := (mem_upserts now dbs job).mp jobMem
    exact writesOf_cell _ value exp
  obtain ⟨succeeds, effects⟩ := Write.applyAll_jobs (upserts now dbs)
    (upserts_distinct now dbs) ownCell before
  constructor
  · have staleSucceeds : (snapshotEffect now dbs before).isSome ↔
        (Write.applyAll before ((upserts now dbs).flatMap Prod.snd)).isSome := by
      unfold snapshotEffect
      cases Write.applyAll before ((upserts now dbs).flatMap Prod.snd) with
      | none => rfl
      | some middle =>
          obtain ⟨after, deleted, -⟩ := deleteAllStaleEffect_slice now dbs
            (List.finRange n) middle
          rw [Option.bind_some, deleted]
          rfl
    rw [staleSucceeds, succeeds]
    constructor
    · intro each idx key value exp visible
      exact each _ ((mem_upserts now dbs _).mpr
        ⟨idx, key, value, exp, visible, rfl⟩)
    · intro each job jobMem
      obtain ⟨idx, key, value, exp, visible, rfl⟩ :=
        (mem_upserts now dbs job).mp jobMem
      exact each idx key value exp visible
  · intro after written
    obtain ⟨middle, upserted, deleted⟩ := Option.bind_eq_some_iff.mp written
    obtain ⟨jobEffects, elsewhere⟩ := effects middle upserted
    obtain ⟨after', deleted', gone, swept, kept⟩ :=
      deleteAllStaleEffect_slice now dbs (List.finRange n) middle
    rw [deleted] at deleted'
    cases deleted'
    refine ⟨?_, fun idx key => gone idx (List.mem_finRange idx) key, ?_, ?_⟩
    · intro idx key value exp visible
      have written := jobEffects _ ((mem_upserts now dbs _).mpr
        ⟨idx, key, value, exp, visible, rfl⟩)
      rw [written, kept]
      intro other _ same
      obtain rfl : idx = other := Fin.ext (Int.ofNat.inj same)
      rw [visible]
      rfl
    · intro idx key invisible
      have untouched : middle.slice ((idx.val : Int), key) =
          before.slice ((idx.val : Int), key) := by
        refine elsewhere _ fun cellMem => ?_
        obtain ⟨job, jobMem, isCell⟩ := List.mem_map.mp cellMem
        obtain ⟨other, otherKey, value, exp, visible, rfl⟩ :=
          (mem_upserts now dbs job).mp jobMem
        obtain ⟨sameIdx, rfl⟩ := Prod.ext_iff.mp isCell
        obtain rfl : other = idx := Fin.ext (Int.ofNat.inj sameIdx)
        rw [visible] at invisible
        cases invisible
      rw [← untouched]
      exact swept _
    · intro cell outside
      rw [kept cell fun idx _ same => absurd same (outside idx), elsewhere]
      intro cellMem
      obtain ⟨job, jobMem, rfl⟩ := List.mem_map.mp cellMem
      obtain ⟨idx, key, value, exp, -, rfl⟩ := (mem_upserts now dbs job).mp jobMem
      exact outside idx rfl

/-! ## Runs of the snapshot -/

section Runs

variable {faults : ℕ → Fault}

/-- Inside a transaction the session stays inside it; when it reports success
it has had the effect on the pending tables, and without faults it reports
success whenever the effect is possible. -/
def Executes (faults : ℕ → Fault) (session : Session (Fallible Unit))
    (effect : Tables → Option Tables) : Prop :=
  ∀ committed pending tick, ∃ result pending' tick',
    session.run (Statement.execAt faults) (⟨committed, some pending⟩, tick) =
        (result, ⟨committed, some pending'⟩, tick') ∧
      (result = .ok () → effect pending = some pending') ∧
      ((∀ i, faults i = none) → (effect pending).isSome → result = .ok ())

/-- Two sessions in a row, the second only after a success of the first. -/
theorem Executes.andThen
    {first second : Session (Fallible Unit)}
    {effect effect' : Tables → Option Tables}
    (executes : Executes faults first effect)
    (executes' : Executes faults second effect') :
    Executes faults (first.andThen fun () => second)
      (fun tables => (effect tables).bind effect') := by
  intro committed pending tick
  obtain ⟨result, middle, tick', ran, sound, complete⟩ :=
    executes committed pending tick
  rw [Program.andThen, Program.run_bind, ran]
  match result with
  | .error () =>
      refine ⟨.error (), middle, tick', rfl, nofun, fun faultless possible => ?_⟩
      have firstPossible : (effect pending).isSome :=
        Option.isSome_of_isSome_bind possible
      cases complete faultless firstPossible
  | .ok () =>
      obtain ⟨result', pending', tick'', ran', sound', complete'⟩ :=
        executes' committed middle tick'
      have reached := sound rfl
      refine ⟨result', pending', tick'', ran', fun isOk => ?_,
        fun faultless possible => ?_⟩
      · change (effect pending).bind effect' = some pending'
        rw [reached, Option.bind_some, sound' isOk]
      · change ((effect pending).bind effect').isSome at possible
        rw [reached, Option.bind_some] at possible
        exact complete' faultless possible

/-- The run of a single statement. -/
theorem perform_run
    (statement : Statement) (connection : Connection) (tick : ℕ) :
    (Statement.perform statement).run (Statement.execAt faults)
        (connection, tick) =
      ((statement.exec (faults tick) connection).1,
        (statement.exec (faults tick) connection).2, tick + 1) := rfl

theorem execute_executes (write : Write) :
    Executes faults (Statement.perform (.execute write))
      (fun tables => write.apply tables) := by
  intro committed pending tick
  rw [perform_run]
  cases fault : faults tick with
  | some count =>
      refine ⟨.error (), pending, tick + 1, rfl, nofun, fun faultless _ => ?_⟩
      rw [faultless tick] at fault
      cases fault
  | none =>
      rw [Statement.exec_execute]
      dsimp only
      cases write.apply pending with
      | none =>
          refine ⟨.error (), pending, tick + 1, rfl, nofun, fun _ possible => ?_⟩
          cases possible
      | some after =>
          exact ⟨.ok (), after, tick + 1, rfl, fun _ => rfl, fun _ _ => rfl⟩

theorem executeAll_executes (faults : ℕ → Fault) (writes : List Write) :
    Executes faults (executeAll writes)
      (fun tables => Write.applyAll tables writes) := by
  induction writes with
  | nil =>
      intro committed pending tick
      exact ⟨.ok (), pending, tick, rfl, fun _ => rfl, fun _ _ => rfl⟩
  | cons write writes ih =>
      exact (execute_executes write).andThen ih

theorem deleteStale_executes (db : Int) (live : List Bytes) :
    Executes faults (deleteStale db live) (deleteStaleEffect db live) := by
  intro committed pending tick
  have writesStale := executeAll_executes faults
    ((staleOf db live pending).flatMap fun key => staleWrites (db, key))
    committed pending (tick + 1)
  unfold deleteStale
  rw [Program.run_bind, perform_run]
  cases fault : faults tick with
  | some count =>
      refine ⟨.error (), pending, tick + 1, rfl, nofun, fun faultless _ => ?_⟩
      rw [faultless tick] at fault
      cases fault
  | none => exact writesStale

theorem deleteAllStale_executes
    (now : UInt64) (dbs : Dbs n) (indices : List (Fin n)) :
    Executes faults (deleteAllStale now dbs indices)
      (deleteAllStaleEffect now dbs indices) := by
  induction indices with
  | nil =>
      intro committed pending tick
      exact ⟨.ok (), pending, tick, rfl, fun _ => rfl, fun _ _ => rfl⟩
  | cons idx indices ih => exact (deleteStale_executes _ _).andThen ih

theorem snapshotInner_executes (faults : ℕ → Fault) (now : UInt64) (dbs : Dbs n) :
    Executes faults (snapshotInner now dbs) (snapshotEffect now dbs) :=
  (executeAll_executes faults _).andThen
    (deleteAllStale_executes now dbs (List.finRange n))

/-- A snapshot on a connection without an open transaction: reported success
means that the effect is committed and the transaction closed, reported failure
that the committed tables are as they were; without faults the snapshot
succeeds whenever its effect is possible. -/
theorem snapshot_run (faults : ℕ → Fault) (now : UInt64) (dbs : Dbs n) (before : Tables) (tick : ℕ) :
    ∃ result connection tick',
      (snapshot now dbs).run (Statement.execAt faults) (⟨before, none⟩, tick) =
          (result, connection, tick') ∧
        (result = .ok () → ∃ after, connection = ⟨after, none⟩ ∧
          snapshotEffect now dbs before = some after) ∧
        (result = .error () → connection.committed = before) ∧
        ((∀ i, faults i = none) → (snapshotEffect now dbs before).isSome →
          result = .ok ()) := by
  unfold snapshot
  rw [Program.andThen, Program.run_bind, perform_run]
  cases beginFault : faults tick with
  | some count =>
      refine ⟨.error (), ⟨before, none⟩, tick + 1, rfl, nofun, fun _ => rfl,
        fun faultless _ => ?_⟩
      rw [faultless tick] at beginFault
      cases beginFault
  | none =>
      obtain ⟨inner, pending, tick', ran, sound, complete⟩ :=
        snapshotInner_executes faults now dbs before before (tick + 1)
      change ∃ result connection tick', Program.run _ (_ >>= _)
        ((⟨before, some before⟩ : Connection), tick + 1) = _ ∧ _
      rw [Program.run_bind, ran]
      match inner with
      | .error () =>
          refine ⟨.error (), _, _, rfl, nofun, fun _ => ?_,
            fun faultless possible => ?_⟩
          · change ((Statement.exec (faults tick') .rollback
              ⟨before, some pending⟩).2).committed = before
            cases faults tick' <;> rfl
          · cases complete faultless possible
      | .ok () =>
          cases commitFault : faults tick' with
          | some count =>
              refine ⟨.error (), ⟨before, some pending⟩, tick' + 1, ?_, nofun,
                fun _ => rfl, fun faultless _ => ?_⟩
              · change ((Statement.perform .commit).run _ _) = _
                rw [perform_run, commitFault]
                rfl
              · rw [faultless tick'] at commitFault
                cases commitFault
          | none =>
              refine ⟨.ok (), ⟨pending, none⟩, tick' + 1, ?_,
                fun _ => ⟨pending, rfl, sound rfl⟩, nofun, fun _ _ => rfl⟩
              change ((Statement.perform .commit).run _ _) = _
              rw [perform_run, commitFault]
              rfl

/-- With a transaction left open a snapshot fails and changes nothing. -/
theorem snapshot_run_open
    (now : UInt64) (dbs : Dbs n) (before pending : Tables) (tick : ℕ) :
    (snapshot now dbs).run (Statement.execAt faults)
        (⟨before, some pending⟩, tick) =
      (.error (), ⟨before, some pending⟩, tick + 1) := by
  unfold snapshot
  rw [Program.andThen, Program.run_bind, perform_run]
  cases faults tick <;> rfl

end Runs

end LibsqlPersist
end Cache
end MuonJs
