import MuonJs.Lib.Program
import MuonJs.Lib.Table
import MuonJs.Cache.Value

/-!
# The persistence schema and its connection

The six tables that hold a snapshot, the statements that the persistence layer
executes on them, and a connection with at most one open transaction.

A statement may fail at any time; a failed statement changes nothing, and a
failed `COMMIT` or `ROLLBACK` leaves the transaction open.  Writes in a
transaction take effect together at `COMMIT`.  `BEGIN` inside a transaction is
an error, as are `COMMIT` and `ROLLBACK` outside one.

The tables know each stored key, a database number with key bytes, as a `Cell`.
Every write concerns one cell, and `Tables.slice` is what the tables hold for
it.
-/

namespace MuonJs
namespace Cache

/-- The columns `db` and `key`, which every table of the schema begins with. -/
abbrev Cell := Int × Bytes

/-- The further columns of `kv`. -/
structure KvRow where
  type : Int
  value : Option Bytes
  expiresAtMs : Option Int64

/-- A `REAL` value: SQL has no NaN. -/
abbrev SqlReal := { value : F64 // value.isNan = false }

/-- The tables of a snapshot. -/
structure Tables where
  kv : Table Cell KvRow
  listItems : Table (Cell × Int) Bytes
  setItems : Table (Cell × Bytes) Unit
  hashItems : Table (Cell × Bytes) Bytes
  zsetItems : Table (Cell × Bytes) (Option SqlReal)
  streamEntries : Table (Cell × Bytes × Int) (Bytes × Bytes)

/-- The tables that hold the items of collections. -/
inductive ItemTable
  | listItems
  | setItems
  | hashItems
  | zsetItems
  | streamEntries

/-- The data-changing statements of `snapshot_inner`. -/
inductive Write
  | replaceKv (cell : Cell) (row : KvRow)
  | deleteKv (cell : Cell)
  | deleteItems (table : ItemTable) (cell : Cell)
  | insertList (cell : Cell) (idx : Int) (value : Bytes)
  | insertSet (cell : Cell) (value : Bytes)
  | insertHash (cell : Cell) (field value : Bytes)
  | insertZset (cell : Cell) (member : Bytes) (score : F64)
  | insertStream (cell : Cell) (entryId : Bytes) (fieldIdx : Int)
      (field value : Bytes)

/-- What a `REAL` column stores for a number: NaN is stored as NULL. -/
def bindReal (value : F64) : Option SqlReal :=
  if number : value.isNan = false then some ⟨value, number⟩ else none

/-- What the tables hold for one cell. -/
structure Slice where
  kv : Option KvRow
  listItems : List (Int × Bytes)
  setItems : List (Bytes × Unit)
  hashItems : List (Bytes × Bytes)
  zsetItems : List (Bytes × Option SqlReal)
  streamEntries : List ((Bytes × Int) × Bytes × Bytes)

namespace Write

/-- The cell a write concerns. -/
def cell : Write → Cell
  | replaceKv cell _ => cell
  | deleteKv cell => cell
  | deleteItems _ cell => cell
  | insertList cell _ _ => cell
  | insertSet cell _ => cell
  | insertHash cell _ _ => cell
  | insertZset cell _ _ => cell
  | insertStream cell _ _ _ _ => cell

/-- Execute a write; fails where it violates a primary key. -/
def apply (tables : Tables) : Write → Option Tables
  | replaceKv cell row => some { tables with kv := tables.kv.replace cell row }
  | deleteKv cell =>
      some { tables with kv := tables.kv.delete fun key => key = cell }
  | deleteItems .listItems cell =>
      some { tables with listItems := tables.listItems.deleteOwner cell }
  | deleteItems .setItems cell =>
      some { tables with setItems := tables.setItems.deleteOwner cell }
  | deleteItems .hashItems cell =>
      some { tables with hashItems := tables.hashItems.deleteOwner cell }
  | deleteItems .zsetItems cell =>
      some { tables with zsetItems := tables.zsetItems.deleteOwner cell }
  | deleteItems .streamEntries cell =>
      some { tables with streamEntries := tables.streamEntries.deleteOwner cell }
  | insertList cell idx value =>
      (tables.listItems.insert (cell, idx) value).map fun items =>
        { tables with listItems := items }
  | insertSet cell value =>
      (tables.setItems.insert (cell, value) ()).map fun items =>
        { tables with setItems := items }
  | insertHash cell field value =>
      (tables.hashItems.insert (cell, field) value).map fun items =>
        { tables with hashItems := items }
  | insertZset cell member score =>
      (tables.zsetItems.insert (cell, member) (bindReal score)).map fun items =>
        { tables with zsetItems := items }
  | insertStream cell entryId fieldIdx field value =>
      (tables.streamEntries.insert (cell, entryId, fieldIdx) (field, value)).map
        fun items => { tables with streamEntries := items }

/-- What a write does to the slice of its cell. -/
def applySlice (slice : Slice) : Write → Option Slice
  | replaceKv _ row => some { slice with kv := some row }
  | deleteKv _ => some { slice with kv := none }
  | deleteItems .listItems _ => some { slice with listItems := [] }
  | deleteItems .setItems _ => some { slice with setItems := [] }
  | deleteItems .hashItems _ => some { slice with hashItems := [] }
  | deleteItems .zsetItems _ => some { slice with zsetItems := [] }
  | deleteItems .streamEntries _ => some { slice with streamEntries := [] }
  | insertList _ idx value =>
      (Table.appendItem slice.listItems idx value).map fun items =>
        { slice with listItems := items }
  | insertSet _ value =>
      (Table.appendItem slice.setItems value ()).map fun items =>
        { slice with setItems := items }
  | insertHash _ field value =>
      (Table.appendItem slice.hashItems field value).map fun items =>
        { slice with hashItems := items }
  | insertZset _ member score =>
      (Table.appendItem slice.zsetItems member (bindReal score)).map fun items =>
        { slice with zsetItems := items }
  | insertStream _ entryId fieldIdx field value =>
      (Table.appendItem slice.streamEntries (entryId, fieldIdx) (field, value)).map
        fun items => { slice with streamEntries := items }

end Write

namespace Tables

/-- The schema just created. -/
def empty : Tables :=
  ⟨.empty, .empty, .empty, .empty, .empty, .empty⟩

/-- What the tables hold for a cell. -/
def slice (tables : Tables) (cell : Cell) : Slice where
  kv := tables.kv.find cell
  listItems := tables.listItems.part cell
  setItems := tables.setItems.part cell
  hashItems := tables.hashItems.part cell
  zsetItems := tables.zsetItems.part cell
  streamEntries := tables.streamEntries.part cell

end Tables

namespace Write

/-- An insert into a table of items acts on the items of its cell. -/
theorem insert_slice {Item Row : Type} [DecidableEq Item] {tables : Tables}
    (table : Table (Cell × Item) Row) (cell : Cell) (item : Item) (row : Row)
    {put : Table (Cell × Item) Row → Tables} {putSlice : List (Item × Row) → Slice}
    (isOwn : ∀ after, (put after).slice cell = putSlice (after.part cell))
    (isOther : ∀ after probe, after.part probe = table.part probe →
      (put after).slice probe = tables.slice probe) :
    ((((table.insert (cell, item) row).map put).map fun after => after.slice cell) =
        (Table.appendItem (table.part cell) item row).map putSlice) ∧
      ∀ after, (table.insert (cell, item) row).map put = some after →
        ∀ probe, cell ≠ probe → after.slice probe = tables.slice probe := by
  obtain ⟨own, others⟩ := table.insert_part cell item row
  constructor
  · rw [← own, Option.map_map, Option.map_map]
    exact Option.map_congr fun after _ => isOwn after
  · intro after applied probe other
    obtain ⟨items, inserted, rfl⟩ := Option.map_eq_some_iff.mp applied
    exact isOther items probe (others items inserted probe other)

/-- A write acts on the slice of its cell and leaves the other slices alone. -/
theorem apply_slice (write : Write) (tables : Tables) :
    ((write.apply tables).map fun after => after.slice write.cell) =
        write.applySlice (tables.slice write.cell) ∧
      ∀ after, write.apply tables = some after →
        ∀ probe, write.cell ≠ probe → after.slice probe = tables.slice probe := by
  cases write with
  | replaceKv cell row =>
      refine ⟨by simp [apply, applySlice, Write.cell, Tables.slice,
        Table.find_replace], fun after applied probe other => ?_⟩
      cases applied
      simp only [Write.cell] at other
      simp [Tables.slice, Table.find_replace, other]
  | deleteKv cell =>
      refine ⟨by simp [apply, applySlice, Write.cell, Tables.slice,
        Table.find_delete], fun after applied probe other => ?_⟩
      cases applied
      simp only [Write.cell] at other
      simp [Tables.slice, Table.find_delete, Ne.symm other]
  | deleteItems table cell =>
      refine ⟨?_, fun after applied probe other => ?_⟩
      · cases table <;>
          simp [apply, applySlice, Write.cell, Tables.slice,
            Table.part_deleteOwner]
      · simp only [Write.cell] at other
        cases table <;> cases applied <;>
          simp [Tables.slice, Table.part_deleteOwner, other]
  | insertList cell idx value =>
      exact insert_slice _ cell idx value (fun _ => rfl)
        fun _ _ same => by simp only [Tables.slice, same]
  | insertSet cell value =>
      exact insert_slice _ cell value () (fun _ => rfl)
        fun _ _ same => by simp only [Tables.slice, same]
  | insertHash cell field value =>
      exact insert_slice _ cell field value (fun _ => rfl)
        fun _ _ same => by simp only [Tables.slice, same]
  | insertZset cell member score =>
      exact insert_slice _ cell member (bindReal score) (fun _ => rfl)
        fun _ _ same => by simp only [Tables.slice, same]
  | insertStream cell entryId fieldIdx field value =>
      exact insert_slice _ cell (entryId, fieldIdx) (field, value) (fun _ => rfl)
        fun _ _ same => by simp only [Tables.slice, same]

/-- Execute writes one after the other, up to the first failure. -/
def applyAll (tables : Tables) (writes : List Write) : Option Tables :=
  writes.foldlM apply tables

/-- What writes for one cell do to its slice. -/
def applySlices (slice : Slice) (writes : List Write) : Option Slice :=
  writes.foldlM applySlice slice

/-- Writes for one cell act on its slice and leave the other slices alone. -/
theorem applyAll_slice
    (writes : List Write) (cell : Cell)
    (oneCell : ∀ write ∈ writes, write.cell = cell)
    (tables : Tables) :
    ((applyAll tables writes).map fun after => after.slice cell) =
        applySlices (tables.slice cell) writes ∧
      ∀ after, applyAll tables writes = some after →
        ∀ probe, cell ≠ probe → after.slice probe = tables.slice probe := by
  induction writes generalizing tables with
  | nil =>
      refine ⟨rfl, fun after applied probe _ => ?_⟩
      cases applied
      rfl
  | cons write writes ih =>
      obtain ⟨own, others⟩ := write.apply_slice tables
      rw [oneCell write List.mem_cons_self] at own others
      have restOneCell : ∀ write ∈ writes, write.cell = cell :=
        fun other otherMem => oneCell other (List.mem_cons_of_mem _ otherMem)
      unfold applyAll applySlices
      rw [List.foldlM_cons, List.foldlM_cons, ← own]
      cases first : write.apply tables with
      | none => exact ⟨rfl, nofun⟩
      | some next =>
          obtain ⟨restOwn, restOthers⟩ := ih restOneCell next
          refine ⟨restOwn, fun after applied probe other => ?_⟩
          rw [restOthers after applied probe other, others next first probe other]

/-- Jobs for distinct cells succeed together exactly when each does on its own
slice, and then every cell holds what its own job makes of it. -/
theorem applyAll_jobs
    (jobs : List (Cell × List Write))
    (distinct : (jobs.map Prod.fst).Nodup)
    (ownCell : ∀ job ∈ jobs, ∀ write ∈ job.2, write.cell = job.1)
    (tables : Tables) :
    ((applyAll tables (jobs.flatMap Prod.snd)).isSome ↔
        ∀ job ∈ jobs, (applySlices (tables.slice job.1) job.2).isSome) ∧
      ∀ after, applyAll tables (jobs.flatMap Prod.snd) = some after →
        (∀ job ∈ jobs,
          applySlices (tables.slice job.1) job.2 = some (after.slice job.1)) ∧
        ∀ cell, cell ∉ jobs.map Prod.fst → after.slice cell = tables.slice cell := by
  induction jobs generalizing tables with
  | nil =>
      refine ⟨by simp [applyAll], fun after applied => ⟨by simp, fun _ _ => ?_⟩⟩
      cases applied
      rfl
  | cons job jobs ih =>
      rw [List.map_cons, List.nodup_cons] at distinct
      obtain ⟨own, others⟩ := applyAll_slice job.2 job.1
        (ownCell job List.mem_cons_self) tables
      have restOwnCell : ∀ other ∈ jobs, ∀ write ∈ other.2,
          write.cell = other.1 :=
        fun other otherMem => ownCell other (List.mem_cons_of_mem _ otherMem)
      have unfoldFirst : applyAll tables ((job :: jobs).flatMap Prod.snd) =
          (applyAll tables job.2).bind fun next =>
            applyAll next (jobs.flatMap Prod.snd) := by
        rw [List.flatMap_cons, applyAll, List.foldlM_append]
        rfl
      rw [unfoldFirst]
      cases first : applyAll tables job.2 with
      | none =>
          rw [first] at own
          refine ⟨?_, nofun⟩
          simp [← own]
      | some next =>
          rw [first, Option.map_some] at own
          have sameSlice : ∀ other ∈ jobs,
              next.slice other.1 = tables.slice other.1 := by
            intro other otherMem
            refine others next first other.1 fun same => distinct.1 ?_
            rw [same]
            exact List.mem_map_of_mem otherMem
          obtain ⟨succeeds, effects⟩ := ih distinct.2 restOwnCell next
          rw [Option.bind_some]
          refine ⟨?_, fun after applied => ?_⟩
          · rw [succeeds, List.forall_mem_cons, ← own]
            simp only [Option.isSome_some, true_and]
            exact forall₂_congr fun other otherMem => by
              rw [sameSlice other otherMem]
          · obtain ⟨jobEffects, elsewhere⟩ := effects after applied
            refine ⟨List.forall_mem_cons.mpr ⟨?_, fun other otherMem => ?_⟩,
              fun cell notMem => ?_⟩
            · rw [← own, elsewhere job.1 distinct.1]
            · rw [← sameSlice other otherMem]
              exact jobEffects other otherMem
            · rw [List.map_cons, List.mem_cons, not_or] at notMem
              rw [elsewhere cell notMem.2,
                others next first cell (Ne.symm notMem.1)]

end Write

/-! ## Statements -/

/-- The rows a query delivers before it ends or fails. -/
structure Cursor (Row : Type) where
  rows : List Row
  failed : Bool

/-- The statements of the persistence layer. -/
inductive Statement
  | beginTransaction
  | commit
  | rollback
  | execute (write : Write)
  | selectKv
  | selectKeys (db : Int)
  | selectList (cell : Cell)
  | selectSet (cell : Cell)
  | selectHash (cell : Cell)
  | selectZset (cell : Cell)
  | selectStream (cell : Cell)

/-- A connection: the committed tables and, in a transaction, the tables as it
sees them. -/
structure Connection where
  committed : Tables
  pending : Option Tables

namespace Connection

/-- The tables that the statements of the connection see. -/
def current (connection : Connection) : Tables :=
  connection.pending.getD connection.committed

/-- Store written tables: in the transaction if one is open, else at once. -/
def store (connection : Connection) (tables : Tables) : Connection :=
  match connection.pending with
  | some _ => { connection with pending := some tables }
  | none => { connection with committed := tables }

end Connection

/-- A fault injected at a statement: a query still delivers the given number of
rows. -/
abbrev Fault := Option ℕ

/-- Deliver rows, up to a fault. -/
def Cursor.deliver (fault : Fault) (rows : List Row) : Cursor Row :=
  match fault with
  | none => ⟨rows, false⟩
  | some count => ⟨rows.take count, true⟩

namespace Statement

/-- What a statement returns. -/
@[reducible] def Result : Statement → Type
  | beginTransaction | commit | rollback | execute _ => Except Unit Unit
  | selectKv => Cursor (Cell × KvRow)
  | selectKeys _ => Cursor Bytes
  | selectList _ => Cursor (Int × Bytes)
  | selectSet _ => Cursor Bytes
  | selectHash _ => Cursor (Bytes × Bytes)
  | selectZset _ => Cursor (Bytes × Option SqlReal)
  | selectStream _ => Cursor ((Bytes × Int) × Bytes × Bytes)

/-- `ORDER BY score ASC`: NULL comes first. -/
def scoreLe (left right : Bytes × Option SqlReal) : Bool :=
  match left.2, right.2 with
  | none, _ => true
  | some _, none => false
  | some left, some right => left.1.key ≤ right.1.key

/-- `ORDER BY entry_id ASC, field_idx ASC`. -/
def entryOrder (left right : (Bytes × Int) × Bytes × Bytes) : Ordering :=
  compareLex (compareOn fun row => row.1.1) (compareOn fun row => row.1.2)
    left right

/-- A row may stand before another. -/
def entryLe (left right : (Bytes × Int) × Bytes × Bytes) : Bool :=
  (entryOrder left right).isLE

/-- Execute a statement. -/
def exec (fault : Fault) :
    (statement : Statement) → Connection → statement.Result × Connection
  | beginTransaction, connection =>
      match fault, connection.pending with
      | none, none =>
          (.ok (), { connection with pending := some connection.committed })
      | _, _ => (.error (), connection)
  | commit, connection =>
      match fault, connection.pending with
      | none, some tables => (.ok (), ⟨tables, none⟩)
      | _, _ => (.error (), connection)
  | rollback, connection =>
      match fault, connection.pending with
      | none, some _ => (.ok (), { connection with pending := none })
      | _, _ => (.error (), connection)
  | execute write, connection =>
      match fault, write.apply connection.current with
      | none, some tables => (.ok (), connection.store tables)
      | _, _ => (.error (), connection)
  | selectKv, connection =>
      (.deliver fault connection.current.kv.rows, connection)
  | selectKeys db, connection =>
      (.deliver fault ((connection.current.kv.rows.map Prod.fst).filterMap
        fun cell => if cell.1 = db then some cell.2 else none), connection)
  | selectList cell, connection =>
      (.deliver fault ((connection.current.slice cell).listItems.insertionSort
        fun left right => left.1 ≤ right.1), connection)
  | selectSet cell, connection =>
      (.deliver fault ((connection.current.slice cell).setItems.map Prod.fst),
        connection)
  | selectHash cell, connection =>
      (.deliver fault (connection.current.slice cell).hashItems, connection)
  | selectZset cell, connection =>
      (.deliver fault ((connection.current.slice cell).zsetItems.insertionSort
        fun left right => scoreLe left right), connection)
  | selectStream cell, connection =>
      (.deliver fault ((connection.current.slice cell).streamEntries.insertionSort
        fun left right => entryLe left right), connection)

theorem exec_write
    (fault : Fault) (write : Write) (connection : Connection) :
    (execute write).exec fault connection =
      match fault, write.apply connection.current with
      | none, some tables => (.ok (), connection.store tables)
      | _, _ => (.error (), connection) := rfl

/-- A write in a transaction acts on the pending tables. -/
theorem exec_execute
    (write : Write) (committed pending : Tables) :
    (execute write).exec none ⟨committed, some pending⟩ =
      match write.apply pending with
      | some tables => (.ok (), ⟨committed, some tables⟩)
      | none => (.error (), ⟨committed, some pending⟩) := by
  rw [exec_write, show Connection.current ⟨committed, some pending⟩ = pending from
    rfl]
  cases write.apply pending <;> rfl

/-- The statements of the persistence layer as a signature. -/
@[reducible] def signature : Signature := ⟨Statement, Result⟩

/-- Execute statements under a pattern of faults, one for each statement. -/
def execAt (faults : ℕ → Fault) : Executor signature (Connection × ℕ) :=
  Program.timed exec faults

/-- The program of a single statement. -/
def perform (statement : Statement) : Program signature statement.Result :=
  @Program.perform signature statement

end Statement

end Cache
end MuonJs
