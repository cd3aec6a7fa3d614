import MuonJs.Cache.Bytes
import MuonJs.Lib.Trace

/-!
# The worker that writes the log

Commands are sent to a bounded queue, and one worker takes them out, collects
up to `AOF_BATCH_MAX` of them and inserts the batch in one transaction.  A batch
whose transaction fails is reported and dropped, and the worker goes on with the
next one.

So the log is made of whole batches, which are consecutive segments of what was
sent, in the order of sending; a batch that failed is missing as a whole.
-/

namespace MuonJs
namespace Cache

/-- `AOF_QUEUE_CAPACITY`. -/
def aofQueueCapacity : ℕ := 4096

/-- `AOF_BATCH_MAX`. -/
def aofBatchMax : ℕ := 256

/-- A bulk string with its length line. -/
def encodeBulk (item : Bytes) : Bytes :=
  asBytes "$" ++ asBytes (toString item.length) ++ asBytes "\r\n" ++ item ++
    asBytes "\r\n"

/-- `encode_cmd`. -/
def encodeCmd (cmd : Bytes) (args : List Bytes) : Bytes :=
  asBytes "*" ++ asBytes (toString (args.length + 1)) ++ asBytes "\r\n" ++
    encodeBulk cmd ++ args.flatMap encodeBulk

/-- An entry of the queue and of the table `aof_log`. -/
structure AofEntry where
  db : Int
  encoded : Bytes
deriving DecidableEq

/-! ## The table -/

/-- The table `aof_log` and the transaction open on the worker's connection. -/
structure AofTable where
  log : List AofEntry
  pending : Option (List AofEntry)
deriving DecidableEq

namespace AofTable

/-- `BEGIN`: an error inside a transaction. -/
def begin (table : AofTable) (fails : Bool) : Option AofTable :=
  match fails, table.pending with
  | false, none => some { table with pending := some table.log }
  | _, _ => none

/-- `INSERT INTO aof_log`. -/
def insert (table : AofTable) (entry : AofEntry) (fails : Bool) :
    Option AofTable :=
  match fails, table.pending with
  | false, some rows => some { table with pending := some (rows ++ [entry]) }
  | false, none => some { table with log := table.log ++ [entry] }
  | true, _ => none

/-- `COMMIT`: an error outside a transaction. -/
def commit (table : AofTable) (fails : Bool) : Option AofTable :=
  match fails, table.pending with
  | false, some rows => some ⟨rows, none⟩
  | _, _ => none

/-- `ROLLBACK`, whose result the worker drops. -/
def rollback (table : AofTable) (fails : Bool) : AofTable :=
  if fails then table else { table with pending := none }

end AofTable

/-! ## The worker -/

/-- Where `run_aof_worker` stands: waiting for a first entry, collecting a
batch, or at the next statement of `flush_aof_batch`. -/
inductive AofPhase
  | receiving
  | collecting (batch : List AofEntry)
  | beginning (batch : List AofEntry)
  | inserting (rest : List AofEntry)
  | rollingBack
  | stopped
deriving DecidableEq

/-- The queue, the worker and the table; `sent` is what has been put into the
queue so far. -/
structure AofState where
  sent : List AofEntry
  queue : List AofEntry
  disconnected : Bool
  phase : AofPhase
  table : AofTable
deriving DecidableEq

/-- What happens next: `log_command_nowait` puts an entry into the queue, the
last sender goes away, the receiving call returns an entry or nothing, or the
next statement is executed. -/
inductive AofEvent
  | logCommandNowait (db : ℕ) (cmd : Bytes) (args : List Bytes)
  | disconnect
  | receive
  | timeout
  | statement (fails : Bool)

namespace AofState

/-- A worker on a table with the given rows. -/
def start (initial : List AofEntry) : AofState :=
  ⟨[], [], false, .receiving, ⟨initial, none⟩⟩

/-- The loop condition of the collecting loop. -/
def collect (batch : List AofEntry) : AofPhase :=
  if batch.length < aofBatchMax then .collecting batch else .beginning batch

/-- The next statement of `flush_aof_batch`; an error of any of them ends the
batch. -/
def statement (state : AofState) (fails : Bool) : AofState :=
  match state.phase with
  | .beginning batch =>
      match state.table.begin fails with
      | some table => { state with phase := .inserting batch, table := table }
      | none => { state with phase := .receiving }
  | .inserting (entry :: rest) =>
      match state.table.insert entry fails with
      | some table => { state with phase := .inserting rest, table := table }
      | none => { state with phase := .rollingBack }
  | .inserting [] =>
      match state.table.commit fails with
      | some table => { state with phase := .receiving, table := table }
      | none => { state with phase := .rollingBack }
  | .rollingBack =>
      { state with phase := .receiving, table := state.table.rollback fails }
  | _ => state

/-- One event; what cannot happen in a state leaves it as it is. -/
def step (state : AofState) : AofEvent → AofState
  | .logCommandNowait db cmd args =>
      if state.queue.length < aofQueueCapacity ∧ state.disconnected = false then
        let entry : AofEntry := ⟨db, encodeCmd cmd args⟩
        { state with
          sent := state.sent ++ [entry], queue := state.queue ++ [entry] }
      else state
  | .disconnect => { state with disconnected := true }
  | .receive =>
      match state.phase, state.queue with
      | .receiving, entry :: queue =>
          { state with queue := queue, phase := collect [entry] }
      | .receiving, [] =>
          if state.disconnected then { state with phase := .stopped } else state
      | .collecting batch, entry :: queue =>
          { state with queue := queue, phase := collect (batch ++ [entry]) }
      | _, _ => state
  | .timeout =>
      match state.phase, state.queue with
      | .collecting batch, [] => { state with phase := .beginning batch }
      | _, _ => state
  | .statement fails => state.statement fails

/-- The entries that the worker has not begun to write. -/
def waiting (state : AofState) : List AofEntry :=
  match state.phase with
  | .collecting batch | .beginning batch => batch ++ state.queue
  | _ => state.queue

end AofState

/-! ## The flushes of a run -/

/-- A call of `flush_aof_batch`: its batch, and for each statement executed so far of
`BEGIN`, an `INSERT` for each entry and `COMMIT`, whether it was done. -/
structure AofFlush where
  entries : List AofEntry
  outcomes : List Bool

/-- All statements of the transaction were done. -/
def AofFlush.isCommitted (flush : AofFlush) : Bool :=
  flush.outcomes = List.replicate (flush.entries.length + 2) true

/-- One more statement of the last flush. -/
def recordOutcome (flushes : List AofFlush) (isDone : Bool) : List AofFlush :=
  flushes.modifyLast fun flush => { flush with outcomes := flush.outcomes ++ [isDone] }

namespace AofState

/-- The flushes after an event: `BEGIN` starts one, and every other statement belongs to
the last. -/
def record (state : AofState) (flushes : List AofFlush) : AofEvent → List AofFlush
  | .statement fails =>
      match state.phase with
      | .beginning batch => flushes ++ [⟨batch, [(state.table.begin fails).isSome]⟩]
      | .inserting (entry :: _) => recordOutcome flushes (state.table.insert entry fails).isSome
      | .inserting [] => recordOutcome flushes (state.table.commit fails).isSome
      | _ => flushes
  | _ => flushes

/-- The flushes of a run, after those there were before. -/
def flushesFrom (state : AofState) (flushes : List AofFlush) : List AofEvent → List AofFlush
  | [] => flushes
  | event :: events => (state.step event).flushesFrom (state.record flushes event) events

/-! ## What the log holds -/

/-- The entries of the flushes of which every statement was done. -/
def committed (flushes : List AofFlush) : List AofEntry :=
  (flushes.filter AofFlush.isCommitted).flatMap AofFlush.entries

/-- Where the worker stands in its batch: what it has inserted is in the transaction, and
its statements were done so far. -/
def Stands (state : AofState) (flushes : List AofFlush) : Prop :=
  match state.phase with
  | .receiving | .stopped | .rollingBack => True
  | .collecting batch => batch ≠ [] ∧ batch.length < aofBatchMax
  | .beginning batch => batch ≠ [] ∧ batch.length ≤ aofBatchMax
  | .inserting rest => ∃ before inserted,
      flushes = before ++
        [⟨inserted ++ rest, List.replicate (inserted.length + 1) true⟩] ∧
      state.table.pending = some (state.table.log ++ inserted)

/-- Nothing has failed: the worker is not rolling back, a transaction is open only while it
inserts, and every flush before is committed. -/
def Clean (state : AofState) (flushes : List AofFlush) : Prop :=
  match state.phase with
  | .rollingBack => False
  | .inserting _ => ∀ flush ∈ flushes.dropLast, flush.isCommitted = true
  | _ => state.table.pending = none ∧ ∀ flush ∈ flushes, flush.isCommitted = true

/-- The invariant of the worker, stronger when nothing may have failed. -/
structure Invariant (initial : List AofEntry) (faultFree : Prop) (state : AofState)
    (flushes : List AofFlush) : Prop where
  isSent : state.sent = flushes.flatMap AofFlush.entries ++ state.waiting
  isLog : state.table.log = initial ++ committed flushes
  bounds : ∀ flush ∈ flushes, flush.entries ≠ [] ∧ flush.entries.length ≤ aofBatchMax
  stands : state.Stands flushes
  clean : faultFree → state.Clean flushes

theorem committed_append (flushes : List AofFlush) (flush : AofFlush) :
    committed (flushes ++ [flush]) =
      committed flushes ++ if flush.isCommitted then flush.entries else [] := by
  rw [committed, List.filter_append, List.flatMap_append]
  cases isCommitted : flush.isCommitted <;> simp [committed, isCommitted]

theorem committed_append_of_false (flushes : List AofFlush) {flush : AofFlush}
    (isOpen : flush.isCommitted = false) : committed (flushes ++ [flush]) = committed flushes := by
  rw [committed_append, isOpen, if_neg Bool.false_ne_true, List.append_nil]

/-- A flush with statements left is not committed, -/
theorem isCommitted_of_lt {flush : AofFlush}
    (isLess : flush.outcomes.length < flush.entries.length + 2) : flush.isCommitted = false := by
  refine decide_eq_false fun all => ?_
  rw [all, List.length_replicate] at isLess
  exact lt_irrefl _ isLess

/-- nor is one of which a statement failed. -/
theorem isCommitted_of_mem {flush : AofFlush} (failed : false ∈ flush.outcomes) :
    flush.isCommitted = false := by
  refine decide_eq_false fun all => ?_
  rw [all] at failed
  cases List.eq_of_mem_replicate failed

/-- The bounds of one more flush. -/
theorem bounds_append {flushes : List AofFlush} {added : AofFlush}
    (bounds : ∀ flush ∈ flushes, flush.entries ≠ [] ∧ flush.entries.length ≤ aofBatchMax)
    (isBounded : added.entries ≠ [] ∧ added.entries.length ≤ aofBatchMax) :
    ∀ flush ∈ flushes ++ [added], flush.entries ≠ [] ∧ flush.entries.length ≤ aofBatchMax := by
  intro other otherMem
  rcases List.mem_append.mp otherMem with before | last
  · exact bounds other before
  · rw [List.mem_singleton.mp last]
    exact isBounded

/-- Step lemma for `BEGIN`. -/
theorem Invariant.begin
    {initial : List AofEntry} {faultFree : Prop} {sent queue batch : List AofEntry}
    {disconnected : Bool} {table : AofTable} {flushes : List AofFlush}
    (invariant : Invariant initial faultFree
      ⟨sent, queue, disconnected, .beginning batch, table⟩ flushes)
    (fails : Bool) (noFault : faultFree → fails = false) :
    Invariant initial faultFree
      (statement ⟨sent, queue, disconnected, .beginning batch, table⟩ fails)
      (flushes ++ [⟨batch, [(table.begin fails).isSome]⟩]) := by
  obtain ⟨isSent, isLog, bounds, ⟨notEmpty, fits⟩, clean⟩ := invariant
  have isOpen (isDone : Bool) : (AofFlush.mk batch [isDone]).isCommitted = false :=
    isCommitted_of_lt (by simp)
  have sentAlso (isDone : Bool) : sent =
      (flushes ++ [AofFlush.mk batch [isDone]]).flatMap AofFlush.entries ++ queue := by
    rw [List.flatMap_append, List.flatMap_singleton, List.append_assoc]
    exact isSent
  have logAlso (isDone : Bool) :
      table.log = initial ++ committed (flushes ++ [AofFlush.mk batch [isDone]]) := by
    rw [committed_append_of_false _ (isOpen isDone)]
    exact isLog
  cases begun : table.begin fails with
  | none =>
      have next : statement ⟨sent, queue, disconnected, .beginning batch, table⟩ fails =
          ⟨sent, queue, disconnected, .receiving, table⟩ := by
        simp only [statement, begun]
      rw [next]
      refine ⟨sentAlso _, logAlso _, bounds_append bounds ⟨notEmpty, fits⟩, trivial, fun free => ?_⟩
      have closed : table.pending = none := (clean free).1
      unfold AofTable.begin at begun
      rw [noFault free, closed] at begun
      cases begun
  | some nextTable =>
      have next : statement ⟨sent, queue, disconnected, .beginning batch, table⟩ fails =
          ⟨sent, queue, disconnected, .inserting batch, nextTable⟩ := by
        simp only [statement, begun]
      rw [next]
      unfold AofTable.begin at begun
      split at begun
      case h_1 closed =>
        cases begun
        refine ⟨sentAlso _, logAlso _, bounds_append bounds ⟨notEmpty, fits⟩,
          ⟨flushes, [], rfl, (List.append_nil _).symm ▸ rfl⟩, fun free => ?_⟩
        intro flush flushMem
        rw [List.dropLast_concat] at flushMem
        exact (clean free).2 flush flushMem
      case h_2 => cases begun

/-- Step lemma for a statement inside a transaction. -/
theorem Invariant.insert
    {initial : List AofEntry} {faultFree : Prop} {sent queue rest : List AofEntry}
    {disconnected : Bool} {table : AofTable} {flushes : List AofFlush}
    (invariant : Invariant initial faultFree
      ⟨sent, queue, disconnected, .inserting rest, table⟩ flushes)
    (fails : Bool) (noFault : faultFree → fails = false) :
    Invariant initial faultFree
      (statement ⟨sent, queue, disconnected, .inserting rest, table⟩ fails)
      (record ⟨sent, queue, disconnected, .inserting rest, table⟩ flushes (.statement fails)) := by
  obtain ⟨isSent, isLog, bounds, ⟨before, inserted, rfl, pending⟩, clean⟩ := invariant
  obtain ⟨log, tablePending⟩ := table
  dsimp only at pending isLog
  subst pending
  have isOpen : (AofFlush.mk (inserted ++ rest)
      (List.replicate (inserted.length + 1) true)).isCommitted = false :=
    isCommitted_of_lt (by simp only [List.length_replicate, List.length_append]; omega)
  rw [committed_append_of_false _ isOpen] at isLog
  have isBounded := bounds _ (List.mem_append_right before (List.mem_singleton_self _))
  have boundsBefore : ∀ flush ∈ before,
      flush.entries ≠ [] ∧ flush.entries.length ≤ aofBatchMax :=
    fun flush flushMem => bounds flush (List.mem_append_left _ flushMem)
  have recorded (isDone : Bool) : recordOutcome
      (before ++ [⟨inserted ++ rest, List.replicate (inserted.length + 1) true⟩]) isDone =
        before ++ [⟨inserted ++ rest, List.replicate (inserted.length + 1) true ++ [isDone]⟩] :=
    List.modifyLast_concat _ _ _
  have sentAlso (outcomes : List Bool) : sent =
      (before ++ [AofFlush.mk (inserted ++ rest) outcomes]).flatMap AofFlush.entries ++ queue := by
    rw [List.flatMap_append, List.flatMap_singleton]
    rw [waiting, List.flatMap_append, List.flatMap_singleton] at isSent
    exact isSent
  have cleanBefore : faultFree → ∀ flush ∈ before, flush.isCommitted = true := by
    intro free flush flushMem
    exact clean free flush (by rwa [List.dropLast_concat])
  have one : List.replicate (inserted.length + 1) true ++ [true] =
      List.replicate (inserted.length + 2) true := List.replicate_succ'.symm
  cases fails with
  | true =>
      -- the statement fails, so the flush is never committed
      have isFailed : (AofFlush.mk (inserted ++ rest)
          (List.replicate (inserted.length + 1) true ++ [false])).isCommitted = false :=
        isCommitted_of_mem (List.mem_append_right _ (List.mem_singleton_self _))
      have failed : Invariant initial faultFree
          ⟨sent, queue, disconnected, .rollingBack, ⟨log, some (log ++ inserted)⟩⟩
          (before ++ [⟨inserted ++ rest,
            List.replicate (inserted.length + 1) true ++ [false]⟩]) := by
        refine ⟨sentAlso _, ?_, bounds_append boundsBefore isBounded, trivial, fun free => ?_⟩
        · rw [committed_append_of_false _ isFailed]
          exact isLog
        · cases noFault free
      rw [← recorded] at failed
      cases rest with
      | nil | cons => exact failed
  | false =>
      cases rest with
      | nil =>
          change Invariant initial faultFree
            ⟨sent, queue, disconnected, .receiving, ⟨log ++ inserted, none⟩⟩
            (recordOutcome _ true)
          rw [recorded, one]
          have isDone : (AofFlush.mk (inserted ++ [])
              (List.replicate (inserted.length + 2) true)).isCommitted = true := by
            rw [List.append_nil]
            exact decide_eq_true rfl
          refine ⟨sentAlso _, ?_, bounds_append boundsBefore isBounded, trivial, fun free => ⟨rfl, ?_⟩⟩
          · change log ++ inserted = _
            rw [committed_append, isDone, if_pos rfl, isLog, List.append_assoc, List.append_nil]
          · intro flush flushMem
            rcases List.mem_append.mp flushMem with isBefore | last
            · exact cleanBefore free flush isBefore
            · rw [List.mem_singleton.mp last]
              exact isDone
      | cons entry rest =>
          change Invariant initial faultFree
            ⟨sent, queue, disconnected, .inserting rest, ⟨log, some ((log ++ inserted) ++ [entry])⟩⟩
            (recordOutcome _ true)
          rw [recorded, one]
          refine ⟨sentAlso _, ?_, bounds_append boundsBefore isBounded,
            ⟨before, inserted ++ [entry], ?_, ?_⟩, fun free => ?_⟩
          · rw [committed_append_of_false _ (isCommitted_of_lt ?_)]
            · exact isLog
            · simp only [List.length_replicate, List.length_append, List.length_cons]
              omega
          · rw [List.length_append, List.append_assoc]
            rfl
          · rw [List.append_assoc]
          · intro flush flushMem
            rw [List.dropLast_concat] at flushMem
            exact cleanBefore free flush flushMem

/-- A worker whose batch is not full goes on to collect. -/
theorem Invariant.collect
    {initial : List AofEntry} {faultFree : Prop} {state : AofState} {flushes : List AofFlush}
    (invariant : state.Invariant initial faultFree flushes) {batch queue : List AofEntry}
    (same : state.waiting = batch ++ queue) (notEmpty : batch ≠ [])
    (fits : batch.length ≤ aofBatchMax)
    (isClean : state.Clean flushes →
      state.table.pending = none ∧ ∀ flush ∈ flushes, flush.isCommitted = true) :
    Invariant initial faultFree { state with queue := queue, phase := collect batch } flushes := by
  obtain ⟨isSent, isLog, bounds, -, clean⟩ := invariant
  rw [same] at isSent
  unfold AofState.collect
  split
  case isTrue more =>
    exact ⟨isSent, isLog, bounds, ⟨notEmpty, more⟩, fun free => isClean (clean free)⟩
  case isFalse => exact ⟨isSent, isLog, bounds, ⟨notEmpty, fits⟩, fun free => isClean (clean free)⟩

/-- Step lemma: every event keeps the invariant. -/
theorem Invariant.step
    {initial : List AofEntry} {faultFree : Prop} {state : AofState} {flushes : List AofFlush}
    (invariant : state.Invariant initial faultFree flushes) (event : AofEvent)
    (noFault : faultFree → event ≠ .statement true) :
    (state.step event).Invariant initial faultFree (state.record flushes event) := by
  obtain ⟨sent, queue, disconnected, phase, table⟩ := state
  cases event with
  | statement fails =>
      have notFailed : faultFree → fails = false := fun free =>
        Bool.eq_false_iff.mpr fun isTrue => noFault free (isTrue ▸ rfl)
      cases phase with
      | receiving | collecting | stopped => exact invariant
      | beginning batch => exact invariant.begin fails notFailed
      | inserting rest => exact invariant.insert fails notFailed
      | rollingBack =>
          obtain ⟨isSent, isLog, bounds, -, clean⟩ := invariant
          refine ⟨isSent, ?_, bounds, trivial, fun free => (clean free).elim⟩
          cases fails <;> exact isLog
  | logCommandNowait db cmd args =>
      rw [AofState.step]
      split
      · obtain ⟨isSent, isLog, bounds, stands, clean⟩ := invariant
        refine ⟨?_, isLog, bounds, stands, clean⟩
        change sent ++ [_] = flushes.flatMap AofFlush.entries ++ waiting _
        dsimp only at isSent
        rw [isSent, List.append_assoc]
        unfold waiting
        cases phase <;> simp only [List.append_assoc]
      · exact invariant
  | disconnect =>
      obtain ⟨isSent, isLog, bounds, stands, clean⟩ := invariant
      exact ⟨isSent, isLog, bounds, stands, clean⟩
  | receive =>
      cases phase with
      | receiving =>
          cases queue with
          | nil =>
              rw [AofState.step]
              dsimp only
              split
              · obtain ⟨isSent, isLog, bounds, stands, clean⟩ := invariant
                exact ⟨isSent, isLog, bounds, trivial, clean⟩
              · exact invariant
          | cons entry queue =>
              exact invariant.collect rfl (by simp) (by simp [aofBatchMax]) id
      | collecting batch =>
          cases queue with
          | nil => exact invariant
          | cons entry queue =>
              obtain ⟨notEmpty, more⟩ := invariant.stands
              refine invariant.collect ?_ (by simp) ?_ id
              · change batch ++ entry :: queue = _
                rw [List.append_assoc]
                rfl
              · rw [List.length_append, List.length_singleton]
                exact more
      | _ => exact invariant
  | timeout =>
      cases phase with
      | collecting batch =>
          cases queue with
          | nil =>
              obtain ⟨isSent, isLog, bounds, ⟨notEmpty, more⟩, clean⟩ := invariant
              exact ⟨isSent, isLog, bounds, ⟨notEmpty, more.le⟩, clean⟩
          | cons entry queue => exact invariant
      | _ => exact invariant

/-- Run lemma: the invariant holds after every sequence of events. -/
theorem Invariant.run
    {initial : List AofEntry} {faultFree : Prop} {state : AofState} {flushes : List AofFlush}
    (invariant : state.Invariant initial faultFree flushes) (events : List AofEvent)
    (noFault : faultFree → ∀ event ∈ events, event ≠ .statement true) :
    (events.foldl AofState.step state).Invariant initial faultFree
      (state.flushesFrom flushes events) := by
  induction events generalizing state flushes with
  | nil => exact invariant
  | cons event events ih =>
      exact ih (invariant.step event fun free => noFault free event List.mem_cons_self)
        fun free other otherMem => noFault free other (List.mem_cons_of_mem _ otherMem)

theorem invariant_start (initial : List AofEntry) (faultFree : Prop) :
    (start initial).Invariant initial faultFree [] :=
  ⟨rfl, (List.append_nil _).symm, by simp, trivial, fun _ => ⟨rfl, by simp⟩⟩

/-- While nothing has failed, what is committed is a prefix of what was flushed. -/
theorem Clean.committed_isPrefix {state : AofState} {flushes : List AofFlush}
    (clean : state.Clean flushes) :
    committed flushes <+: flushes.flatMap AofFlush.entries := by
  have all {flushes : List AofFlush} (isClean : ∀ flush ∈ flushes, flush.isCommitted = true) :
      committed flushes = flushes.flatMap AofFlush.entries := by
    rw [committed, List.filter_eq_self.mpr isClean]
  obtain rfl | ⟨before, last, rfl⟩ := List.eq_nil_or_concat' flushes
  · exact List.prefix_rfl
  have cleanBefore : ∀ flush ∈ before, flush.isCommitted = true := by
    intro flush flushMem
    unfold Clean at clean
    split at clean
    · exact clean.elim
    · exact clean flush (by rwa [List.dropLast_concat])
    · exact clean.2 flush (List.mem_append_left _ flushMem)
  rw [committed_append, all cleanBefore, List.flatMap_append, List.flatMap_singleton]
  refine (List.prefix_append_right_inj _).mpr ?_
  split
  · exact List.prefix_rfl
  · exact List.nil_prefix

/-- At every moment the flushes were made of consecutive segments of what was sent, in the
order of sending, and the log is the initial contents followed by the entries of those of
which every statement was done; of a flush with a failed statement nothing is there.
While no statement has failed, the log is the initial contents followed by a prefix of
what was sent. -/
theorem log_eq_committed_batches
    (initial : List AofEntry) (events : List AofEvent) :
    let state := events.foldl AofState.step (start initial)
    let flushes := (start initial).flushesFrom [] events
    (state.sent = flushes.flatMap AofFlush.entries ++ state.waiting ∧
        state.table.log = initial ++ committed flushes ∧
        ∀ flush ∈ flushes, flush.entries ≠ [] ∧ flush.entries.length ≤ aofBatchMax) ∧
      ((∀ event ∈ events, event ≠ .statement true) →
        ∃ sentBefore, sentBefore <+: state.sent ∧
          state.table.log = initial ++ sentBefore) := by
  constructor
  · obtain ⟨isSent, isLog, bounds, -, -⟩ :=
      (invariant_start initial False).run events fun free => free.elim
    exact ⟨isSent, isLog, bounds⟩
  · intro noFault
    obtain ⟨isSent, isLog, -, -, clean⟩ :=
      (invariant_start initial True).run events fun _ => noFault
    refine ⟨_, ?_, isLog⟩
    rw [isSent]
    exact (clean trivial).committed_isPrefix.trans (List.prefix_append _ _)

/-- A first batch whose `BEGIN` fails, and a second one. -/
def lostBatch : List AofEvent :=
  [.logCommandNowait 0 (asBytes "SET") [asBytes "a", asBytes "1"], .receive,
    .timeout, .statement true,
    .logCommandNowait 0 (asBytes "SET") [asBytes "b", asBytes "2"], .receive,
    .timeout, .statement false, .statement false, .statement false]

/-- The log can have a gap. -/
theorem not_always_prefix :
    ¬∀ (initial : List AofEntry) (events : List AofEvent),
      ∃ sentBefore, sentBefore <+: (events.foldl step (start initial)).sent ∧
        (events.foldl step (start initial)).table.log = initial ++ sentBefore := by
  intro always
  obtain ⟨sentBefore, isPrefix, log⟩ := always [] lostBatch
  have sent : (lostBatch.foldl step (start [])).sent =
      [⟨0, encodeCmd (asBytes "SET") [asBytes "a", asBytes "1"]⟩,
        ⟨0, encodeCmd (asBytes "SET") [asBytes "b", asBytes "2"]⟩] := by
    rfl
  have stored : (lostBatch.foldl step (start [])).table.log =
      [⟨0, encodeCmd (asBytes "SET") [asBytes "b", asBytes "2"]⟩] := by
    rfl
  rw [stored, List.nil_append] at log
  rw [sent, ← log] at isPrefix
  revert isPrefix
  decide

end AofState
end Cache
end MuonJs
