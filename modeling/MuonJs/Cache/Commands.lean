import MuonJs.Cache.Effects
import MuonJs.Cache.Server

/-!
# Running a command

`handle_command` on one database, with a log and a script cache.  Every handler
has one of a few shapes: it only reads, or it makes one call, logs the command
when the result asks for it and replies, or it is one of the commands made of
several calls.  What a command does follows from its shape
(`handleCommand_shape`).
-/

namespace MuonJs
namespace Cache

/-- The methods that commands call: all but the `set` that loads a snapshot. -/
def EntryOp.ofCommand : EntryOp → Bool
  | .set .. => false
  | _ => true

/-- The calls that commands make. -/
def Call.ofCommand : Call → Bool
  | .entry _ op => op.ofCommand
  | .setMove .. | .shard .. => true

/-- The calls that answer commands that only read. -/
def Call.queries : Call → Bool
  | .entry _ op => op.reads
  | .setMove .. | .shard _ .flush | .shard _ .snapshotItems => false
  | .shard .. => true

theorem Call.reads_of_queries (call : Call) (isQuery : call.queries = true) :
    call.reads = true := by
  cases call with
  | entry key op => exact isQuery
  | setMove source dest member => cases isQuery
  | shard index op =>
      cases op with
      | flush => cases isQuery
      | _ => rfl

/-- What a handler acts on. -/
structure HandlerState where
  db : Db
  log : List (Command × List Bytes)
  scripts : ScriptCache

namespace HandlerCall

/-- What a call of a handler does at a clock reading. -/
def exec (now : UInt64) : Executor signature HandlerState
  | .db call, state =>
      ((call.exec now state.db).1, { state with db := (call.exec now state.db).2 })
  | .now, state => (now, state)
  | .log cmd args, state => ((), { state with log := state.log ++ [(cmd, args)] })
  | .scripts op, state =>
      ((op.apply state.scripts).1,
        { state with scripts := (op.apply state.scripts).2 })
  | .check _, state => ((), state)

/-- The calls that leave the database's live entries and the log alone. -/
def reads : HandlerCall → Bool
  | .db call => call.reads
  | .log .. => false
  | .now | .scripts _ | .check _ => true

/-- The calls among them that a command makes: no copy of a whole shard. -/
def queries : HandlerCall → Bool
  | .db call => call.queries
  | .log .. => false
  | .now | .scripts _ | .check _ => true

theorem reads_of_queries (call : HandlerCall) (isQuery : call.queries = true) :
    call.reads = true := by
  cases call with
  | db call => exact call.reads_of_queries isQuery
  | log cmd args => cases isQuery
  | _ => rfl

/-- The call is a check that fails. -/
def fails : HandlerCall → Bool
  | .check passes => !passes
  | _ => false

end HandlerCall

/-- The reply is an error. -/
def RespValue.isError : RespValue → Bool
  | .error _ => true
  | _ => false

namespace Handler

variable {clock : ℕ → UInt64}

/-- Run a handler with a clock, from a count of calls; the call of number `n`
reads `clock n`. -/
def runFrom (clock : ℕ → UInt64) (handler : Handler α)
    (state : HandlerState) (tick : ℕ) : α × HandlerState × ℕ :=
  handler.run (Program.timed HandlerCall.exec clock) (state, tick)

@[simp] theorem runFrom_call
    (request : HandlerCall) (next : request.Result → Handler α)
    (state : HandlerState) (tick : ℕ) :
    runFrom clock (@Program.call HandlerCall.signature α request next) state tick =
      runFrom clock (next (request.exec (clock tick) state).1)
        (request.exec (clock tick) state).2 (tick + 1) := rfl

@[simp] theorem runFrom_bind
    (handler : Handler α) (follow : α → Handler β)
    (state : HandlerState) (tick : ℕ) :
    runFrom clock (handler >>= follow) state tick =
      runFrom clock (follow (runFrom clock handler state tick).1)
        (runFrom clock handler state tick).2.1
        (runFrom clock handler state tick).2.2 :=
  Program.run_bind _ _ _ _

/-- The count of calls does not go down. -/
theorem tick_le_runFrom
    (handler : Handler α) (state : HandlerState) (tick : ℕ) :
    tick ≤ (runFrom clock handler state tick).2.2 := by
  induction handler generalizing state tick with
  | pure value => exact le_rfl
  | call request next ih => exact (Nat.le_succ tick).trans (ih _ _ _)

/-- Run a handler in a process that ends where a check fails. -/
def runChecked (clock : ℕ → UInt64) :
    Handler α → HandlerState → ℕ → Option (α × HandlerState × ℕ)
  | .pure value, state, tick => some (value, state, tick)
  | .call request next, state, tick =>
      if HandlerCall.fails request then none
      else runChecked clock (next (HandlerCall.exec (clock tick) request state).1)
        (HandlerCall.exec (clock tick) request state).2 (tick + 1)

theorem runChecked_bind
    (handler : Handler α) (follow : α → Handler β)
    (state : HandlerState) (tick : ℕ) :
    runChecked clock (handler >>= follow) state tick =
      (runChecked clock handler state tick).bind fun outcome =>
        runChecked clock (follow outcome.1) outcome.2.1 outcome.2.2 := by
  induction handler generalizing state tick with
  | pure value => rfl
  | call request next ih =>
      rw [Program.call_bind, runChecked, runChecked]
      split
      · rfl
      · exact ih _ _ _

/-- A handler without failing checks runs to its end. -/
theorem runChecked_of_issues
    {handler : Handler α}
    (issues : handler.Issues fun call : HandlerCall => call.fails = false)
    (state : HandlerState) (tick : ℕ) :
    runChecked clock handler state tick =
      some (runFrom clock handler state tick) := by
  induction handler generalizing state tick with
  | pure value => rfl
  | call request next ih =>
      rw [runChecked, if_neg (by rw [issues.1]; exact Bool.false_ne_true)]
      exact ih _ (issues.2 _) _ _

/-- Run a handler with a clock. -/
abbrev execute (clock : ℕ → UInt64) (handler : Handler α) (state : HandlerState) :
    α × HandlerState × ℕ :=
  runFrom clock handler state 0

end Handler

/-- The result reports that the method changed nothing. -/
def EntryOp.idle : (op : EntryOp) → op.Result → Bool
  | .remove, removed => !removed
  | .setExpireMs _, isSet => !isSet
  | .persist, removed => removed != 1
  | .setNx _, isSet | .hashSetNx .., isSet => !Handler.okAnd id isSet
  | .listPop _, popped => !Handler.okAnd Option.isSome popped
  | .listInsert .., count | .listRem .., count | .listPushX .., count
  | .zrem _, count => !Handler.okAnd (fun count => 0 < count) count
  | op, result => op.reads || op.failed result

/-- The call of a command that is logged only when the call reports a number, or
a value taken from the list. -/
def Command.countedCall : Command → List Bytes → Option (Bytes × EntryOp)
  | .lpop, [key] => some (key, .listPop true)
  | .rpop, [key] => some (key, .listPop false)
  | .lpop, [key, count] =>
      if (parseI64 count).getD 0 ≤ 0 then none else some (key, .listPop true)
  | .rpop, [key, count] =>
      if (parseI64 count).getD 0 ≤ 0 then none else some (key, .listPop false)
  | .linsert, key :: pos :: pivot :: value :: _ =>
      let upper := toAsciiUppercase pos
      if upper = asBytes "BEFORE" ∨ upper = asBytes "AFTER" then
        some (key, .listInsert (upper == asBytes "BEFORE") pivot value)
      else none
  | .lrem, key :: count :: value :: _ =>
      (parseI64 count).map fun count => (key, .listRem count value)
  | .lpushx, key :: value :: values => some (key, .listPushX (value :: values) true)
  | .rpushx, key :: value :: values => some (key, .listPushX (value :: values) false)
  | .zrem, key :: member :: members => some (key, .zrem (member :: members))
  | _, _ => none

/-- The method with its key, if it reports such a number or value. -/
def EntryOp.counted (key : Bytes) : EntryOp → Option (Bytes × EntryOp)
  | .listPop left => some (key, .listPop left)
  | .listInsert before pivot value => some (key, .listInsert before pivot value)
  | .listRem count value => some (key, .listRem count value)
  | .listPushX values left => some (key, .listPushX values left)
  | .zrem members => some (key, .zrem members)
  | _ => none

/-- The keys of `MSET`. -/
def Command.pairKeys : List Bytes → List Bytes
  | key :: _ :: rest => key :: pairKeys rest
  | _ => []

/-- The arguments of a command that are keys. -/
def Command.keyArgs : Command → List Bytes → List Bytes
  | .mset, args => pairKeys args
  | .mget, args | .del, args | .keyExists, args | .sunion, args | .sinter, args => args
  | .smove, source :: dest :: _ => [source, dest]
  | .ping, _ | .echo, _ | .select, _ | .dbsize, _ | .keys, _ | .scan, _ | .flushdb, _
  | .flushall, _ | .info, _ | .eval, _ | .evalsha, _ | .script, _ | .config, _
  | .functionCmd, _ | .client, _ | .slowlog, _ | .save, _ | .bgsave, _ | .replicaof, _
  | .quit, _ | .multi, _ | .execQueued, _ | .discard, _ | .subscribe, _ | .publish, _ => []
  | _, args => args.take 1

/-- The command calls the method to change an entry. -/
def EntryOp.calledBy (cmd : Command) : EntryOp → Bool
  | .remove => cmd == .del
  | .setExpireMs _ => cmd == .expire || cmd == .pexpire
  | .persist => cmd == .persist
  | .setString .. => cmd == .mset || cmd == .getset
  | .setStringRef .. => cmd == .set
  | .setNx _ => cmd == .setnx
  | .append _ => cmd == .append
  | .incrBy _ => [.incr, .incrby, .decr, .decrby].contains cmd
  | .listPush values left => !values.isEmpty && cmd == if left then .lpush else .rpush
  | .listPop left => cmd == if left then .lpop else .rpop
  | .listSet .. => cmd == .lset
  | .listInsert .. => cmd == .linsert
  | .listRem .. => cmd == .lrem
  | .listPushX values left => !values.isEmpty && cmd == if left then .lpushx else .rpushx
  | .listTrim .. => cmd == .ltrim
  | .hashSetRef .. => cmd == .hset
  | .hashDel _ => cmd == .hdel
  | .hashIncrBy .. => cmd == .hincrby
  | .hashSetNx .. => cmd == .hsetnx
  | .setAdd members => !members.isEmpty && cmd == .sadd
  | .setRemove _ => cmd == .srem
  | .zadd .. => cmd == .zadd
  | .zrem _ => cmd == .zrem
  | .streamAdd .. => cmd == .xadd
  | .streamDel _ => cmd == .xdel
  | _ => false

/-- The calls that a command can make. -/
def HandlerCall.ofRequest (cmd : Command) (args : List Bytes) : HandlerCall → Prop
  | .db (.entry key op) =>
      op.reads = true ∨ key ∈ cmd.keyArgs args ∧ op.calledBy cmd = true
  | .db (.setMove source dest _) =>
      cmd = .smove ∧ source ∈ cmd.keyArgs args ∧ dest ∈ cmd.keyArgs args
  | .db (.shard _ .flush) => cmd = .flushdb
  | .db (.shard _ .snapshotItems) => False
  | .db (.shard ..) | .now | .scripts _ | .check _ => True
  | .log logged loggedArgs => logged = cmd ∧ loggedArgs = args

/-- `set_inter` only reads. -/
theorem Db.setInter_queries (keys : List Bytes) :
    (Db.setInter keys).Issues fun call : Call => call.queries = true := by
  cases keys with
  | nil => trivial
  | cons first others =>
      refine ⟨rfl, fun members => ?_⟩
      cases members with
      | ok members => exact Db.setInterLoop_issues (fun _ _ => rfl) others members
      | error _ => trivial

namespace Handler

/-- `SMOVE` of a member. -/
def smove (context : HandlerContext) (args : List Bytes)
    (source dest member : Bytes) : Handler RespValue := do
  let moved ← perform (.db (.setMove source dest member))
  if okAnd id moved then logCmd context .smove args
  return orWrongType .flag moved

/-- What a handler does, for a command and its arguments. -/
inductive Shape (context : HandlerContext) (args : List Bytes) :
    Command → Handler RespValue → Prop
  | reading {cmd : Command} {handler : Handler RespValue}
      (issues : handler.Issues fun call : HandlerCall => call.queries = true) :
      Shape context args cmd handler
  | change {cmd : Command} (key : Bytes) (op : EntryOp)
      (logs : op.Result → Bool) (respond : op.Result → RespValue)
      (errors : ∀ result, (respond result).isError = true →
        op.failed result = true)
      (unlogged : ∀ result, op.idle result = !logs result)
      (isKey : key ∈ cmd.keyArgs args) (called : op.calledBy cmd = true)
      (counted : op.counted key = cmd.countedCall args) :
      Shape context args cmd
        (Handler.change context cmd args key op logs respond)
  | set : Shape context args .set (Handler.set context args)
  | mset : Shape context args .mset (do
      msetLoop args
      logCmd context .mset args
      return .ok)
  | getset (key value : Bytes) (rest : List Bytes)
      (isArgs : args = key :: value :: rest) :
      Shape context args .getset (Handler.getset context args key value)
  | hset (key : Bytes) (pairs : List Bytes) (isArgs : args = key :: pairs)
      (paired : pairs.length % 2 = 0) :
      Shape context args .hset (do
        logAndReply context .hset args .integer (← hsetLoop key 0 pairs))
  | zadd (key : Bytes) (pairs : List Bytes) (isArgs : args = key :: pairs)
      (paired : pairs.length % 2 = 0) :
      Shape context args .zadd (do
        logAndReply context .zadd args .integer (← zaddLoop key 0 pairs))
  | pop {cmd : Command} (key count : Bytes) (isArgs : args = [key, count])
      (isPop : cmd = .lpop ∨ cmd = .rpop) :
      Shape context args cmd (Handler.pop context cmd args)
  | del : Shape context args .del (do
      let removed ← countLoop 0 .remove id args
      logCmd context .del args
      return .integer removed)
  | smove (source dest member : Bytes) (rest : List Bytes)
      (isArgs : args = source :: dest :: member :: rest) :
      Shape context args .smove (Handler.smove context args source dest member)
  | flushdb : Shape context args .flushdb (do
      let _ ← db Db.flush
      logCmd context .flushdb args
      return .ok)

section Shapes

variable {context : HandlerContext} {args : List Bytes} {cmd : Command}

theorem shape_reply (reply : RespValue) :
    Shape context args cmd (.pure reply) :=
  .reading trivial

theorem shape_answer
    {op : EntryOp} (isRead : op.reads = true) (key : Bytes)
    (respond : op.Result → RespValue) :
    Shape context args cmd (answer key op respond) :=
  .reading ⟨isRead, fun _ => trivial⟩

/-- Only a failure is answered with an error. -/
theorem isError_orError
    {message : RespValue} {respond : α → RespValue}
    (succeeds : ∀ value, (respond value).isError = false)
    {result : Fallible α}
    (isError : (orError message respond result).isError = true) :
    result.isError = true := by
  cases result with
  | ok value => rw [orError, succeeds] at isError; cases isError
  | error reason => rfl

/-- A handler makes the calls of the database methods it uses. -/
theorem db_issues
    {allowed : Call → Prop} {allowed' : HandlerCall → Prop}
    (lifts : ∀ call, allowed call → allowed' (.db call))
    {method : Db.Method α} (issues : method.Issues allowed) :
    (db method).Issues allowed' := by
  unfold db
  induction method with
  | pure value => trivial
  | call request next ih =>
      exact ⟨lifts request issues.1, fun result => ih result (issues.2 result)⟩

theorem db_queries
    {method : Db.Method α}
    (issues : method.Issues fun call : Call => call.queries = true) :
    (db method).Issues fun call : HandlerCall => call.queries = true :=
  db_issues (fun _ isRead => isRead) issues

theorem mgetLoop_issues
    {allowed : HandlerCall → Prop} (each : ∀ key, allowed (.db (.entry key .getString)))
    (keys : List Bytes) : (mgetLoop keys).Issues allowed := by
  induction keys with
  | nil => trivial
  | cons key keys ih =>
      refine ⟨each key, fun value => ?_⟩
      cases value with
      | error reason => trivial
      | ok value =>
          refine ih.bind fun values => ?_
          cases values <;> trivial

theorem countLoop_issues
    {allowed : HandlerCall → Prop} {op : EntryOp} {keys : List Bytes}
    (each : ∀ key ∈ keys, allowed (.db (.entry key op)))
    (isTrue : op.Result → Bool) (count : Int64) :
    (countLoop count op isTrue keys).Issues allowed := by
  induction keys generalizing count with
  | nil => trivial
  | cons key keys ih =>
      exact ⟨each key List.mem_cons_self,
        fun _ => ih (fun other inRest => each other (List.mem_cons_of_mem _ inRest)) _⟩

theorem isError_eq_not_isOk (result : Fallible α) :
    result.isError = !isOk result := by
  cases result <;> rfl

theorem stringCmds_shape
    {handler : Handler RespValue}
    (isOwn : stringCmds context cmd args = some handler) :
    Shape context args cmd handler := by
  cases cmd with
  | dbsize =>
      cases isOwn
      refine .reading ((db_queries ?_).bind fun _ => trivial)
      exact (Db.eachShard_issues _ fun _ => rfl).bind fun _ => trivial
  | get | strlen =>
      cases isOwn
      match args with
      | [] => exact shape_reply _
      | key :: _ => exact shape_answer rfl key _
  | setnx =>
      cases isOwn
      match args with
      | [] | [_] => exact shape_reply _
      | key :: value :: _ =>
          exact .change _ _ _ _ (fun _ => isError_orError fun _ => rfl)
            (fun _ => rfl) (.head _) rfl rfl
  | mset =>
      cases isOwn
      split
      · exact shape_reply _
      · exact .mset
  | mget =>
      cases isOwn
      split
      · exact shape_reply _
      · exact .reading ((mgetLoop_issues (fun _ => rfl) args).bind fun _ => trivial)
  | getset =>
      cases isOwn
      match args with
      | [] | [_] => exact shape_reply _
      | key :: value :: rest => exact .getset key value rest rfl
  | append =>
      cases isOwn
      match args with
      | [] | [_] => exact shape_reply _
      | key :: value :: _ =>
          exact .change _ _ _ _ (fun _ => isError_orError fun _ => rfl)
            isError_eq_not_isOk (.head _) rfl rfl
  | incr | decr =>
      cases isOwn
      match args with
      | [] => exact shape_reply _
      | key :: _ =>
          exact .change _ _ _ _ (fun _ => isError_orError fun _ => rfl)
            isError_eq_not_isOk (.head _) rfl rfl
  | incrby | decrby =>
      cases isOwn
      match args with
      | [] | [_] => exact shape_reply _
      | key :: delta :: _ =>
          exact .change _ _ _ _ (fun _ => isError_orError fun _ => rfl)
            isError_eq_not_isOk (.head _) rfl rfl
  | _ => cases isOwn

theorem hashCmds_shape
    {handler : Handler RespValue}
    (isOwn : hashCmds context cmd args = some handler) :
    Shape context args cmd handler := by
  cases cmd with
  | hset =>
      cases isOwn
      match args with
      | [] => exact shape_reply _
      | key :: pairs =>
          split
          · exact shape_reply _
          · rename_i isArity
            rw [List.length_cons] at isArity
            exact .hset key pairs rfl (by omega)
  | hget | hexists =>
      cases isOwn
      match args with
      | [] | [_] => exact shape_reply _
      | key :: field :: _ => exact shape_answer rfl key _
  | hdel =>
      cases isOwn
      match args with
      | [] | [_] => exact shape_reply _
      | key :: field :: fields =>
          exact .change _ _ _ _ (fun _ => isError_orError fun _ => rfl)
            isError_eq_not_isOk (.head _) rfl rfl
  | hgetall | hlen =>
      cases isOwn
      match args with
      | [] => exact shape_reply _
      | key :: _ => exact shape_answer rfl key _
  | hincrby =>
      cases isOwn
      match args with
      | [] | [_] | [_, _] => exact shape_reply _
      | key :: field :: delta :: _ =>
          dsimp only
          split
          · exact .change _ _ _ _ (fun _ => isError_orError fun _ => rfl)
              isError_eq_not_isOk (.head _) rfl rfl
          · exact shape_reply _
  | hsetnx =>
      cases isOwn
      match args with
      | [] | [_] | [_, _] => exact shape_reply _
      | key :: field :: value :: _ =>
          exact .change _ _ _ _ (fun _ => isError_orError fun _ => rfl)
            (fun _ => rfl) (.head _) rfl rfl
  | _ => cases isOwn

theorem pop_shape (isPop : cmd = .lpop ∨ cmd = .rpop) :
    Shape context args cmd (pop context cmd args) := by
  match args with
  | [] => exact shape_reply _
  | [key] =>
      exact .change _ _ _ _ (fun _ => isError_orError fun value => by
        cases value <;> rfl) (fun _ => rfl)
        (by rcases isPop with rfl | rfl <;> exact .head _)
        (by rcases isPop with rfl | rfl <;> rfl)
        (by rcases isPop with rfl | rfl <;> rfl)
  | [key, count] => exact .pop key count rfl isPop
  | _ :: _ :: _ :: _ => exact shape_reply _

theorem listCmds_shape
    {handler : Handler RespValue}
    (isOwn : listCmds context cmd args = some handler) :
    Shape context args cmd handler := by
  cases cmd with
  | lpush | rpush =>
      cases isOwn
      match args with
      | [] | [_] => exact shape_reply _
      | key :: value :: values =>
          exact .change _ _ _ _ (fun _ => isError_orError fun _ => rfl)
            isError_eq_not_isOk (.head _) rfl rfl
  | lpop =>
      cases isOwn
      exact pop_shape (.inl rfl)
  | rpop =>
      cases isOwn
      exact pop_shape (.inr rfl)
  | lrange =>
      cases isOwn
      match args with
      | [] | [_] | [_, _] => exact shape_reply _
      | key :: start :: stop :: _ => exact shape_answer rfl key _
  | llen =>
      cases isOwn
      match args with
      | [] => exact shape_reply _
      | key :: _ => exact shape_answer rfl key _
  | lindex =>
      cases isOwn
      match args with
      | [] | [_] => exact shape_reply _
      | key :: index :: _ =>
          dsimp only
          split
          · exact shape_reply _
          · exact shape_answer rfl key _
  | lset =>
      cases isOwn
      match args with
      | [] | [_] | [_, _] => exact shape_reply _
      | key :: index :: value :: _ =>
          dsimp only
          split
          · exact shape_reply _
          · exact .change _ _ _ _ (fun _ => isError_orError fun _ => rfl)
              isError_eq_not_isOk (.head _) rfl rfl
  | linsert =>
      cases isOwn
      match args with
      | [] | [_] | [_, _] | [_, _, _] => exact shape_reply _
      | key :: pos :: pivot :: value :: _ =>
          dsimp only
          split
          · rename_i isPosition
            exact .change _ _ _ _ (fun _ => isError_orError fun _ => rfl)
              (fun _ => rfl) (.head _) rfl (if_pos isPosition).symm
          · exact shape_reply _
  | lrem =>
      cases isOwn
      match args with
      | [] | [_] | [_, _] => exact shape_reply _
      | key :: count :: value :: _ =>
          dsimp only
          split
          · exact shape_reply _
          · rename_i isCount
            exact .change _ _ _ _ (fun _ => isError_orError fun _ => rfl)
              (fun _ => rfl) (.head _) rfl
              (by rw [Command.countedCall, isCount]; rfl)
  | lpushx | rpushx =>
      cases isOwn
      match args with
      | [] | [_] => exact shape_reply _
      | key :: value :: values =>
          exact .change _ _ _ _ (fun _ => isError_orError fun _ => rfl)
            (fun _ => rfl) (.head _) rfl rfl
  | ltrim =>
      cases isOwn
      match args with
      | [] | [_] | [_, _] => exact shape_reply _
      | key :: start :: stop :: _ =>
          exact .change _ _ _ _ (fun _ => isError_orError fun _ => rfl)
            isError_eq_not_isOk (.head _) rfl rfl
  | _ => cases isOwn

theorem setCmds_shape
    {handler : Handler RespValue}
    (isOwn : setCmds context cmd args = some handler) :
    Shape context args cmd handler := by
  cases cmd with
  | sadd | srem =>
      cases isOwn
      match args with
      | [] | [_] => exact shape_reply _
      | key :: member :: members =>
          exact .change _ _ _ _ (fun _ => isError_orError fun _ => rfl)
            isError_eq_not_isOk (.head _) rfl rfl
  | smembers | scard =>
      cases isOwn
      match args with
      | [] => exact shape_reply _
      | key :: _ => exact shape_answer rfl key _
  | sismember =>
      cases isOwn
      match args with
      | [] | [_] => exact shape_reply _
      | key :: member :: _ => exact shape_answer rfl key _
  | smove =>
      cases isOwn
      match args with
      | [] | [_] | [_, _] => exact shape_reply _
      | source :: dest :: member :: rest =>
          exact .smove source dest member rest rfl
  | sunion =>
      cases isOwn
      split
      · exact shape_reply _
      · refine .reading ((db_queries ?_).bind fun _ => trivial)
        exact (Db.setUnionLoop_issues (fun _ => rfl) ∅ args).bind
          fun _ => trivial
  | sinter =>
      cases isOwn
      split
      · exact shape_reply _
      · refine .reading ((db_queries ?_).bind fun _ => trivial)
        exact Db.setInter_queries args
  | _ => cases isOwn

theorem zsetCmds_shape
    {handler : Handler RespValue}
    (isOwn : zsetCmds context cmd args = some handler) :
    Shape context args cmd handler := by
  cases cmd with
  | zadd =>
      cases isOwn
      match args with
      | [] => exact shape_reply _
      | key :: pairs =>
          split
          · exact shape_reply _
          · rename_i isArity
            rw [List.length_cons] at isArity
            exact .zadd key pairs rfl (by omega)
  | zrange =>
      cases isOwn
      match args with
      | [] | [_] | [_, _] => exact shape_reply _
      | key :: start :: stop :: _ => exact shape_answer rfl key _
  | zrem =>
      cases isOwn
      match args with
      | [] | [_] => exact shape_reply _
      | key :: member :: members =>
          exact .change _ _ _ _ (fun _ => isError_orError fun _ => rfl)
            (fun _ => rfl) (.head _) rfl rfl
  | zcard =>
      cases isOwn
      match args with
      | [] => exact shape_reply _
      | key :: _ => exact shape_answer rfl key _
  | _ => cases isOwn

theorem streamCmds_shape
    {handler : Handler RespValue}
    (isOwn : streamCmds context cmd args = some handler) :
    Shape context args cmd handler := by
  cases cmd with
  | xadd =>
      cases isOwn
      split
      · exact shape_reply _
      · match args with
        | [] | [_] => exact shape_reply _
        | key :: id :: fields =>
            dsimp only
            split
            · exact shape_reply _
            · exact .change _ _ _ _ (fun _ => isError_orError fun _ => rfl)
                isError_eq_not_isOk (.head _) rfl rfl
  | xrange | xrevrange =>
      cases isOwn
      match args with
      | [] | [_] | [_, _] => exact shape_reply _
      | key :: start :: stop :: _ => exact shape_answer rfl key _
  | xlen =>
      cases isOwn
      match args with
      | [] => exact shape_reply _
      | key :: _ => exact shape_answer rfl key _
  | xdel =>
      cases isOwn
      match args with
      | [] | [_] => exact shape_reply _
      | key :: id :: ids =>
          exact .change _ _ _ _ (fun _ => isError_orError fun _ => rfl)
            isError_eq_not_isOk (.head _) rfl rfl
  | _ => cases isOwn

theorem scan_shape : Shape context args cmd (scan args) := by
  match args with
  | [] => exact shape_reply _
  | cursor :: options =>
      dsimp only [scan]
      split
      · exact shape_reply _
      · split
        · exact shape_reply _
        · refine .reading ((db_queries ?_).bind fun keys => ⟨rfl, fun _ => trivial⟩)
          exact (Db.eachShard_issues _ fun _ => rfl).bind fun _ => trivial

theorem keyCmds_shape
    {handler : Handler RespValue}
    (isOwn : keyCmds context cmd args = some handler) :
    Shape context args cmd handler := by
  cases cmd with
  | set =>
      cases isOwn
      exact .set
  | del =>
      cases isOwn
      exact .del
  | keyExists =>
      cases isOwn
      have counts : (countLoop 0 .keyExists id args).Issues
          fun call : HandlerCall => call.queries = true :=
        countLoop_issues (fun _ _ => rfl) _ _
      exact .reading (counts.bind fun _ => trivial)
  | expire | pexpire =>
      cases isOwn
      match args with
      | [] | [_] => exact shape_reply _
      | key :: _ :: _ => exact .change _ _ _ _ (fun _ => nofun) (fun _ => rfl) (.head _) rfl rfl
  | persist =>
      cases isOwn
      match args with
      | [] => exact shape_reply _
      | key :: _ => exact .change _ _ _ _ (fun _ => nofun) (fun _ => rfl) (.head _) rfl rfl
  | ttl | pttl | keyType =>
      cases isOwn
      match args with
      | [] => exact shape_reply _
      | key :: _ => exact shape_answer rfl key _
  | keys =>
      cases isOwn
      match args with
      | [] => exact shape_reply _
      | pattern :: _ =>
          refine .reading ((db_queries ?_).bind fun _ => trivial)
          exact (Db.eachShard_issues _ fun _ => rfl).bind fun _ => trivial
  | scan =>
      cases isOwn
      exact scan_shape
  | flushdb =>
      cases isOwn
      split
      · exact .flushdb
      · exact shape_reply _
  | _ => cases isOwn

theorem handleScriptCommand_issues
    {allowed : HandlerCall → Prop} (scripts : ∀ op, allowed (.scripts op))
    (args : List Bytes) : (handleScriptCommand args).Issues allowed := by
  unfold handleScriptCommand
  split
  · trivial
  · split
    · split
      · split
        · trivial
        · exact ⟨scripts _, fun _ => trivial⟩
      · trivial
    · split
      · split
        · trivial
        · exact ⟨scripts _, fun _ => trivial⟩
      · split
        · exact ⟨scripts _, fun _ => trivial⟩
        · trivial

theorem handleFunction_issues
    {allowed : HandlerCall → Prop} (scripts : ∀ op, allowed (.scripts op))
    (args : List Bytes) : (handleFunction args).Issues allowed := by
  unfold handleFunction
  split
  · trivial
  · split
    · trivial
    · split
      · exact ⟨scripts _, fun _ => trivial⟩
      · split
        · split
          · trivial
          · dsimp only
            split
            · trivial
            · exact ⟨scripts _, fun _ => trivial⟩
        · trivial

theorem metaCmds_shape
    {handler : Handler RespValue}
    (isOwn : metaCmds cmd args = some handler) :
    Shape context args cmd handler := by
  cases cmd with
  | info | config | client | slowlog | replicaof | quit =>
      cases isOwn
      exact shape_reply _
  | script =>
      cases isOwn
      exact .reading (handleScriptCommand_issues (fun _ => rfl) args)
  | functionCmd =>
      cases isOwn
      exact .reading (handleFunction_issues (fun _ => rfl) args)
  | _ => cases isOwn

theorem inlineCmds_shape :
    Shape context args cmd (inlineCmds context cmd args) := by
  unfold inlineCmds
  split
  · exact shape_reply _
  · exact shape_reply _
  · exact shape_reply _
  · exact shape_reply _
  · exact shape_reply _
  · cases isMeta : metaCmds cmd args with
    | some handler => exact metaCmds_shape isMeta
    | none => exact shape_reply _

/-- Every command has one of the shapes. -/
theorem handleCommand_shape :
    Shape context args cmd (handleCommand context cmd args) := by
  unfold handleCommand
  cases ofKey : keyCmds context cmd args with
  | some handler => exact keyCmds_shape ofKey
  | none =>
  cases ofString : stringCmds context cmd args with
  | some handler => exact stringCmds_shape ofString
  | none =>
  cases ofHash : hashCmds context cmd args with
  | some handler => exact hashCmds_shape ofHash
  | none =>
  cases ofList : listCmds context cmd args with
  | some handler => exact listCmds_shape ofList
  | none =>
  cases ofSet : setCmds context cmd args with
  | some handler => exact setCmds_shape ofSet
  | none =>
  cases ofZSet : zsetCmds context cmd args with
  | some handler => exact zsetCmds_shape ofZSet
  | none =>
  cases ofStream : streamCmds context cmd args with
  | some handler => exact streamCmds_shape ofStream
  | none => exact inlineCmds_shape

/-! ## The calls of commands -/

section Issues

variable {allowed : HandlerCall → Prop}

theorem logCmd_issues (logs : allowed (.log cmd args)) :
    (logCmd context cmd args).Issues allowed := by
  unfold logCmd
  split
  · trivial
  · split
    · exact ⟨logs, fun _ => trivial⟩
    · trivial

/-- A reply with or without logging before it. -/
theorem logIf_issues
    (logs : allowed (.log cmd args)) (isLogged : Bool) (reply : RespValue) :
    (if isLogged = true then
        logCmd context cmd args >>= fun _ => Program.pure reply
      else Program.pure reply).Issues allowed := by
  split
  · exact (logCmd_issues logs).bind fun _ => trivial
  · trivial

theorem logAndReply_issues
    (logs : allowed (.log cmd args)) (result : Fallible Int64) :
    (logAndReply context cmd args .integer result).Issues allowed := by
  cases result with
  | ok value => exact (logCmd_issues logs).bind fun _ => trivial
  | error reason => trivial

theorem msetLoop_issues
    {pairs : List Bytes}
    (each : ∀ key ∈ Command.pairKeys pairs, ∀ value,
      allowed (.db (.entry key (.setString value none)))) :
    (msetLoop pairs).Issues allowed := by
  fun_induction msetLoop pairs with
  | case1 key value rest ih =>
      exact ⟨each key List.mem_cons_self value,
        fun _ => ih fun other inRest => each other (List.mem_cons_of_mem _ inRest)⟩
  | case2 => trivial

theorem hsetLoop_issues
    {key : Bytes}
    (each : ∀ field value, allowed (.db (.entry key (.hashSetRef field value))))
    (added : Int64) (pairs : List Bytes) :
    (hsetLoop key added pairs).Issues allowed := by
  fun_induction hsetLoop key added pairs with
  | case1 added field value rest ih =>
      refine ⟨each field value, fun isNew => ?_⟩
      cases isNew with
      | ok isNew => exact ih isNew
      | error reason => trivial
  | case2 => trivial

theorem zaddLoop_issues
    {key : Bytes}
    (each : ∀ score member, allowed (.db (.entry key (.zadd score member))))
    (added : Int64) (pairs : List Bytes) :
    (zaddLoop key added pairs).Issues allowed := by
  fun_induction zaddLoop key added pairs with
  | case1 added score member rest ih =>
      refine ⟨each _ member, fun isNew => ?_⟩
      cases isNew with
      | ok isNew => exact ih isNew
      | error reason => trivial
  | case2 => trivial

theorem popLoop_issues
    {key : Bytes} {left : Bool} (each : allowed (.db (.entry key (.listPop left))))
    (count : ℕ) :
    (popLoop key left count).Issues allowed := by
  induction count with
  | zero => trivial
  | succ count ih =>
      refine ⟨each, fun popped => ?_⟩
      match popped with
      | .ok (some value) =>
          refine ih.bind fun values => ?_
          cases values <;> trivial
      | .ok none => trivial
      | .error () => trivial

end Issues

theorem parseSetArgs_isKey
    {key value : Bytes} {expireMs : Option UInt64}
    (parsed : parseSetArgs args = .ok (key, value, expireMs)) :
    key ∈ Command.keyArgs .set args := by
  match args with
  | [] | [_] => cases parsed
  | first :: second :: options =>
      rw [parseSetArgs] at parsed
      cases expiry : setOptions none options with
      | error message => rw [expiry] at parsed; cases parsed
      | ok expireMs =>
          rw [expiry] at parsed
          cases parsed
          exact .head _

theorem set_ofRequest :
    (Handler.set context args).Issues (HandlerCall.ofRequest .set args) := by
  have logged : (logCmd context .set args >>= fun _ => Program.pure RespValue.ok).Issues
      (HandlerCall.ofRequest .set args) :=
    (logCmd_issues ⟨rfl, rfl⟩).bind fun _ => trivial
  unfold Handler.set
  split
  · exact ⟨.inr ⟨.head _, rfl⟩, fun _ => logged⟩
  · split
    · trivial
    · rename_i parsed
      exact ⟨.inr ⟨parseSetArgs_isKey parsed, rfl⟩, fun _ => logged⟩
    · rename_i parsed
      exact ⟨trivial, fun _ => ⟨.inr ⟨parseSetArgs_isKey parsed, rfl⟩, fun _ => logged⟩⟩

theorem pop_ofRequest
    {key count : Bytes} (isPop : cmd = .lpop ∨ cmd = .rpop) :
    (Handler.pop context cmd [key, count]).Issues
      (HandlerCall.ofRequest cmd [key, count]) := by
  have isKey : key ∈ cmd.keyArgs [key, count] := by
    rcases isPop with rfl | rfl <;> exact .head _
  have called : (EntryOp.listPop (cmd == .lpop)).calledBy cmd = true := by
    rcases isPop with rfl | rfl <;> rfl
  unfold Handler.pop
  dsimp only
  split
  · trivial
  · refine (popLoop_issues (.inr ⟨isKey, called⟩) _).bind fun values => ?_
    match values with
    | .error () => trivial
    | .ok [] => trivial
    | .ok (_ :: _) => exact (logCmd_issues ⟨rfl, rfl⟩).bind fun _ => trivial

theorem ofRequest_of_queries (call : HandlerCall) (isQuery : call.queries = true) :
    call.ofRequest cmd args := by
  cases call with
  | db call =>
      cases call with
      | entry key op => exact .inl isQuery
      | setMove source dest member => cases isQuery
      | shard index op =>
          cases op with
          | flush | snapshotItems => cases isQuery
          | _ => trivial
  | log logged loggedArgs => cases isQuery
  | _ => trivial

theorem Shape.ofRequest
    {handler : Handler RespValue} (shape : Shape context args cmd handler) :
    handler.Issues (HandlerCall.ofRequest cmd args) := by
  cases shape with
  | reading issues => exact issues.mono ofRequest_of_queries
  | change key op logs respond errors unlogged isKey called counted =>
      exact ⟨.inr ⟨isKey, called⟩, fun result => logIf_issues ⟨rfl, rfl⟩ _ _⟩
  | set => exact set_ofRequest
  | mset =>
      exact (msetLoop_issues fun key isKey value => .inr ⟨isKey, rfl⟩).bind fun _ =>
        (logCmd_issues ⟨rfl, rfl⟩).bind fun _ => trivial
  | getset key value rest isArgs =>
      subst isArgs
      refine ⟨.inl rfl, fun previous => ?_⟩
      cases previous with
      | error reason => trivial
      | ok previous =>
          exact ⟨.inr ⟨.head _, rfl⟩, fun _ =>
            (logCmd_issues ⟨rfl, rfl⟩).bind fun _ => trivial⟩
  | hset key pairs isArgs paired =>
      subst isArgs
      exact (hsetLoop_issues (fun _ _ => .inr ⟨.head _, rfl⟩) 0 pairs).bind
        (logAndReply_issues ⟨rfl, rfl⟩)
  | zadd key pairs isArgs paired =>
      subst isArgs
      exact (zaddLoop_issues (fun _ _ => .inr ⟨.head _, rfl⟩) 0 pairs).bind
        (logAndReply_issues ⟨rfl, rfl⟩)
  | pop key count isArgs isPop =>
      subst isArgs
      exact pop_ofRequest isPop
  | del =>
      have each : ∀ key ∈ args, HandlerCall.ofRequest .del args (.db (.entry key .remove)) :=
        fun key isKey => .inr ⟨isKey, rfl⟩
      exact (countLoop_issues each id 0).bind fun _ =>
        (logCmd_issues ⟨rfl, rfl⟩).bind fun _ => trivial
  | smove source dest member rest isArgs =>
      subst isArgs
      exact ⟨⟨rfl, .head _, .tail _ (.head _)⟩, fun moved => logIf_issues ⟨rfl, rfl⟩ _ _⟩
  | flushdb =>
      refine (@db_issues _ (fun call : Call => ∃ index, call = .shard index .flush) _
        (fun _ ⟨_, isFlush⟩ => isFlush ▸ rfl) _ ?_).bind fun _ =>
          (logCmd_issues ⟨rfl, rfl⟩).bind fun _ => trivial
      exact (Db.eachShard_issues _ fun index => ⟨index, rfl⟩).bind fun _ => trivial

/-- A command makes only its own calls. -/
theorem handleCommand_ofRequest :
    (handleCommand context cmd args).Issues (HandlerCall.ofRequest cmd args) :=
  handleCommand_shape.ofRequest

end Shapes

end Handler

end Cache
end MuonJs
