import MuonJs.Cache.Db
import MuonJs.Lib.OrderedMap
import MuonJs.Script.Doubles

/-!
# The core executor and its metrics

`CoreExecutor` runs commands on databases of its own and records each of them.  The
metrics keep totals, a window of the last second, which is pruned when a command is
recorded, and the last 4096 latencies.
-/

namespace MuonJs
namespace Cache
namespace Core

/-! ## Commands -/

/-- `CoreCommand`. -/
inductive CoreCommand
  | set (key value : String)
  | get (key : String)
  | hset (key field value : String)
  | hget (key field : String)
  | hincrby (key field : String) (delta : Int64)
  | zadd (key : String) (score : F64) (member : String)
  | zrange (key : String) (start stop : Int64)
  | zcard (key : String)
  | del (keys : List String)
  | flushdb

/-- `CoreData`. -/
inductive CoreData
  | null
  | integer (value : Int64)
  | string (text : String)
  | strings (texts : List String)

/-- `CoreResponse`. -/
structure CoreResponse where
  ok : Bool
  data : Option CoreData
  error : Option String

/-- `CoreResponse::ok`. -/
def CoreResponse.success (data : CoreData) : CoreResponse := ⟨true, some data, none⟩

/-- `CoreResponse::err`. -/
def CoreResponse.err (msg : String) : CoreResponse := ⟨false, none, some msg⟩

/-- `WRONGTYPE`. -/
def wrongType : String := "WRONGTYPE Operation against a key holding the wrong kind of value"

/-- `ERR_HASH_INT`. -/
def errHashInt : String := "ERR hash value is not an integer"

/-- The name under which a command is counted. -/
def CoreCommand.name : CoreCommand → String
  | .set .. => "SET"
  | .get _ => "GET"
  | .hset .. => "HSET"
  | .hget .. => "HGET"
  | .hincrby .. => "HINCRBY"
  | .zadd .. => "ZADD"
  | .zrange .. => "ZRANGE"
  | .zcard _ => "ZCARD"
  | .del _ => "DEL"
  | .flushdb => "FLUSHDB"

/-- The reply of a method that may meet a value of another kind. -/
def respond (error : String) (data : α → CoreData) : Fallible α → CoreResponse
  | .ok value => .success (data value)
  | .error _ => .err error

/-- The reply with a string that may be missing. -/
def stringOrNull : Option Bytes → CoreData
  | some bytes => .string (fromUtf8Lossy bytes)
  | none => .null

/-- Whether something was inserted, as a number. -/
def insertedCount (inserted : Bool) : CoreData := .integer (if inserted then 1 else 0)

/-- The loop of `DEL`. -/
def removeKeys (db : Db) : List String → Int64 → Int64 × Db
  | [], removed => (removed, db)
  | key :: keys, removed =>
      let (isRemoved, db) := db.access (asBytes key) Shard.remove
      removeKeys db keys (if isRemoved then removed + 1 else removed)

/-- `Db::flush`. -/
def flush (db : Db) : Db := (List.finRange numShards).foldl Db.flushShard db

/-- `execute_inner`, on the current database; `now` is the time that expiry is checked
against. -/
def executeInner (db : Db) (now : UInt64) : CoreCommand → CoreResponse × Db
  | .set key value =>
      let (_, db) := db.access (asBytes key) (Shard.setStringRef (asBytes value) none)
      (.success (.string "OK"), db)
  | .get key =>
      let (result, db) := db.access (asBytes key) (Shard.getString now)
      (respond wrongType stringOrNull result, db)
  | .hset key field value =>
      let (result, db) := db.access (asBytes key)
        (Shard.hashSetBytes (asBytes field) (asBytes value) now)
      (respond wrongType insertedCount result, db)
  | .hget key field =>
      let (result, db) := db.access (asBytes key) (Shard.hashGet (asBytes field) now)
      (respond wrongType stringOrNull result, db)
  | .hincrby key field delta =>
      let (result, db) := db.access (asBytes key) (Shard.hashIncrBy (asBytes field) delta now)
      (respond errHashInt .integer result, db)
  | .zadd key score member =>
      let (result, db) := db.access (asBytes key) (Shard.zadd score (asBytes member) now)
      (respond wrongType insertedCount result, db)
  | .zrange key start stop =>
      let (result, db) := db.access (asBytes key) (Shard.zrange start stop now)
      (respond wrongType (fun items => .strings (items.map fromUtf8Lossy)) result, db)
  | .zcard key =>
      let (result, db) := db.access (asBytes key) (Shard.zcard now)
      (respond wrongType .integer result, db)
  | .del keys =>
      let (removed, db) := removeKeys db keys 0
      (.success (.integer removed), db)
  | .flushdb => (.success (.string "OK"), flush db)

/-! ## Metrics -/

/-- `MAX_LATENCY_SAMPLES`. -/
def maxLatencySamples : ℕ := 4096

/-- `CoreMetrics`. -/
structure CoreMetrics where
  opsTotal : UInt64
  errorsTotal : UInt64
  commandMix : OrderedMap String UInt64
  opTimestampsUs : List UInt64
  latenciesUs : List UInt32
  queueDepth : UInt32
  batchOpsTotal : UInt64
  batchCount : UInt64

namespace CoreMetrics

/-- `CoreMetrics::default`. -/
def initial : CoreMetrics := ⟨0, 0, .empty, [], [], 0, 0, 0⟩

/-- `record_batch`. -/
def recordBatch (metrics : CoreMetrics) (size : ℕ) : CoreMetrics :=
  if 0 < size then
    { metrics with
      batchOpsTotal := metrics.batchOpsTotal + UInt64.ofNat size
      batchCount := metrics.batchCount + 1 }
  else metrics

/-- `u64::saturating_sub`. -/
def saturatingSub (left right : UInt64) : UInt64 := if left < right then 0 else left - right

/-- A latency as it is kept. -/
def clampLatency (latencyUs : UInt64) : UInt32 := (min latencyUs 0xFFFFFFFF).toUInt32

/-- The loop that drops the oldest samples. -/
def dropSamples : List UInt32 → List UInt32
  | [] => []
  | sample :: samples =>
      if maxLatencySamples < (sample :: samples).length then dropSamples samples
      else sample :: samples

/-- `record_op`. -/
def recordOp (metrics : CoreMetrics) (nowUs : UInt64) (command : String) (latencyUs : UInt64)
    (isError : Bool) : CoreMetrics :=
  { metrics with
    opsTotal := metrics.opsTotal + 1
    errorsTotal := if isError then metrics.errorsTotal + 1 else metrics.errorsTotal
    commandMix := metrics.commandMix.set command ((metrics.commandMix.get command).getD 0 + 1)
    opTimestampsUs := (metrics.opTimestampsUs ++ [nowUs]).dropWhile
      fun front => front < saturatingSub nowUs 1000000
    latenciesUs := dropSamples (metrics.latenciesUs ++ [clampLatency latencyUs]) }

end CoreMetrics

/-- `f64::round`, then `as usize`. -/
def roundAsUsize (value : F64) : ℕ :=
  if value.isNan ∨ value.isNegative then 0 else min (2 ^ 64 - 1) ⌊value.toRat + 1 / 2⌋₊

/-- `percentile`, of sorted samples. -/
def percentile (samples : List UInt32) (p : F64) : UInt64 :=
  if samples.isEmpty then 0
  else
    let idx := roundAsUsize (F64.mul (F64.ofInt (samples.length - 1 : ℕ)) p)
    (samples.getD (min idx (samples.length - 1)) 0).toUInt64

/-- `CoreMetricsSnapshot`. -/
structure CoreMetricsSnapshot where
  opsTotal : UInt64
  opsWindow1s : UInt64
  batchSizeAvg : F64
  latencyP50Us : UInt64
  latencyP95Us : UInt64
  latencyP99Us : UInt64
  queueDepth : UInt32
  errorsTotal : UInt64
  commandMix : OrderedMap String UInt64

/-- `snapshot`. -/
def CoreMetrics.snapshot (metrics : CoreMetrics) : CoreMetricsSnapshot :=
  let latencies := metrics.latenciesUs.mergeSort
  { opsTotal := metrics.opsTotal
    opsWindow1s := UInt64.ofNat metrics.opTimestampsUs.length
    batchSizeAvg :=
      if 0 < metrics.batchCount then
        F64.div (F64.ofInt metrics.batchOpsTotal.toNat) (F64.ofInt metrics.batchCount.toNat)
      else F64.zero
    latencyP50Us := percentile latencies ⟨0x3FE0000000000000⟩
    latencyP95Us := percentile latencies ⟨0x3FEE666666666666⟩
    latencyP99Us := percentile latencies ⟨0x3FEFAE147AE147AE⟩
    queueDepth := metrics.queueDepth
    errorsTotal := metrics.errorsTotal
    commandMix := metrics.commandMix }

/-! ## The executor -/

/-- `CoreExecutor`; its current database exists. -/
structure CoreExecutor where
  dbs : List Db
  currentDb : ℕ
  metrics : CoreMetrics
  inRange : currentDb < dbs.length

/-- The readings of the clock during a call, and the time for expiry. -/
structure Clock where
  startUs : UInt64
  endUs : UInt64
  recordUs : UInt64
  nowMs : UInt64

/-- The calls of a run. -/
inductive Event
  | execute (cmd : CoreCommand) (clock : Clock)
  | executeBatch (cmds : List CoreCommand) (clock : Clock)
  | setQueueDepth (depth : UInt32)
  | reset

namespace CoreExecutor

/-- `CoreExecutor::new`. -/
def new (databases : ℕ) : CoreExecutor where
  dbs := List.replicate (max databases 1) Db.empty
  currentDb := 0
  metrics := .initial
  inRange := by
    rw [List.length_replicate]
    omega

/-- `CoreExecutor::reset`. -/
def reset (core : CoreExecutor) : CoreExecutor where
  dbs := List.replicate (max core.dbs.length 1) Db.empty
  currentDb := 0
  metrics := .initial
  inRange := by
    rw [List.length_replicate]
    omega

/-- `set_queue_depth`. -/
def setQueueDepth (core : CoreExecutor) (depth : UInt32) : CoreExecutor :=
  { core with metrics := { core.metrics with queueDepth := depth } }

/-- `execute_inner`. -/
def inner (core : CoreExecutor) (now : UInt64) (cmd : CoreCommand) : CoreResponse × CoreExecutor :=
  let (resp, db) := executeInner (core.dbs.get ⟨core.currentDb, core.inRange⟩) now cmd
  (resp, { core with
    dbs := core.dbs.set core.currentDb db
    inRange := by
      rw [List.length_set]
      exact core.inRange })

/-- `CoreExecutor::execute`. -/
def execute (core : CoreExecutor) (cmd : CoreCommand) (clock : Clock) :
    CoreResponse × CoreExecutor :=
  let (resp, core) := core.inner clock.nowMs cmd
  (resp, { core with
    metrics := core.metrics.recordOp clock.recordUs cmd.name
      (CoreMetrics.saturatingSub clock.endUs clock.startUs) (!resp.ok) })

/-- The commands of a batch. -/
def innerAll (core : CoreExecutor) (now : UInt64) :
    List CoreCommand → List CoreResponse × CoreExecutor
  | [] => ([], core)
  | cmd :: cmds =>
      let (resp, core) := core.inner now cmd
      let (resps, core) := core.innerAll now cmds
      (resp :: resps, core)

/-- The names of a batch are recorded. -/
def recordAll (metrics : CoreMetrics) (now perCmdUs : UInt64) :
    List (String × Bool) → CoreMetrics
  | [] => metrics
  | (name, isError) :: names =>
      recordAll (metrics.recordOp now name perCmdUs isError) now perCmdUs names

/-- `CoreExecutor::execute_batch`. -/
def executeBatch (core : CoreExecutor) (cmds : List CoreCommand) (clock : Clock) :
    List CoreResponse × CoreExecutor :=
  let core := { core with metrics := core.metrics.recordBatch cmds.length }
  let (out, core) := core.innerAll clock.nowMs cmds
  let names := (cmds.map CoreCommand.name).zip (out.map fun resp => !resp.ok)
  let batchElapsed := CoreMetrics.saturatingSub clock.endUs clock.startUs
  let perCmdUs := if cmds.isEmpty then 0 else batchElapsed / UInt64.ofNat cmds.length
  (out, { core with metrics := recordAll core.metrics clock.recordUs perCmdUs names })

/-- One call: the replies and the executor behind it. -/
def step (core : CoreExecutor) : Event → List CoreResponse × CoreExecutor
  | .execute cmd clock => ([(core.execute cmd clock).1], (core.execute cmd clock).2)
  | .executeBatch cmds clock => core.executeBatch cmds clock
  | .setQueueDepth depth => ([], core.setQueueDepth depth)
  | .reset => ([], core.reset)

/-- Calls one after the other. -/
def run (core : CoreExecutor) (events : List Event) : CoreExecutor :=
  events.foldl (fun core event => (core.step event).2) core

end CoreExecutor

end Core
end Cache
end MuonJs
