import MuonJs.Cache.Server

/-!
# What requests do to the server

The state outside the connections, the effect of every call on it, and the
requests of one connection run one after the other.
-/

namespace MuonJs
namespace Cache

/-! ## Methods that panic -/

namespace Shard

/-- The start of `list_trim`, before it becomes an index. -/
def trimStart (items : List Bytes) (start : Int64) : ℤ :=
  if start < 0 then max (lenI64 items + start).toInt 0
  else min start.toInt (lenI64 items).toInt

/-- The end of `list_trim`, before it becomes an index. -/
def trimStop (items : List Bytes) (stop : Int64) : ℤ :=
  if stop < 0 then max (lenI64 items + stop).toInt (-1)
  else min stop.toInt (lenI64 items - 1).toInt

/-- `list_trim` panics when the items before the start are drained from a list
that has fewer items left. -/
def trimPanics (items : List Bytes) (start stop : Int64) : Bool :=
  let s := (Int64.ofInt (trimStart items start)).toUInt64
  let e := (Int64.ofInt (trimStop items stop)).toUInt64
  if e < s ∨ items.length ≤ s.toNat then false
  else (items.take (e + 1).toNat).length < s.toNat

end Shard

/-- The calls that panic.  The sorting of `zrange` is taken to end for scores that have no
order as well, where the library is free to panic. -/
def Call.panics (now : UInt64) : Call → Db → Bool
  | .entry key (.listTrim start stop), db =>
      match (db.visible now key).bind fun stored => stored.value.asList with
      | some items => Shard.trimPanics items start stop
      | none => false
  | _, _ => false

/-! ## The state outside the connections -/

/-- `PUBSUB_CHANNEL_CAPACITY`. -/
def pubsubChannelCapacity : ℕ := 1024

/-- The state outside the connections: the databases, the scripts, the commands
sent to the log, the contents last saved, the senders of every channel, and the
messages that wait for every connection that is still open. -/
structure ServerState (n : ℕ) where
  dbs : Dbs n
  scripts : ScriptCache
  log : List (ℕ × Command × List Bytes)
  saved : Option (Dbs n)
  channels : Bytes → List ℕ
  queues : ℕ → Option (List RespValue)

namespace ServerState

/-- One more sender in the registry. -/
def register (sender : ℕ) (state : ServerState n) (channel : Bytes) :
    ServerState n :=
  { state with channels :=
      Function.update state.channels channel (state.channels channel ++ [sender]) }

/-- The queue is open and has room. -/
def Accepts (state : ServerState n) (receiver : ℕ) : Prop :=
  ∃ waiting, state.queues receiver = some waiting ∧
    waiting.length < pubsubChannelCapacity

/-- One more message in the queue. -/
def enqueue (state : ServerState n) (receiver : ℕ) (waiting : List RespValue)
    (message : RespValue) : ServerState n :=
  { state with queues :=
      Function.update state.queues receiver (some (waiting ++ [message])) }

/-- `Sender::try_send`. -/
def trySend (state : ServerState n) (receiver : ℕ) (message : RespValue) :
    Bool × ServerState n :=
  match state.queues receiver with
  | none => (false, state)
  | some waiting =>
      if waiting.length < pubsubChannelCapacity then
        (true, state.enqueue receiver waiting message)
      else (false, state)

end ServerState

/-- A server without data, of which connection `0` is open. -/
def ServerState.fresh : ServerState n where
  dbs := fun _ => .empty
  scripts := fun _ => none
  log := []
  saved := none
  channels := fun _ => []
  queues := fun sender => if sender = 0 then some [] else none

/-- What a call depends on besides the state: the clock, and how a snapshot ends
that is made at this moment. -/
structure Moment where
  now : UInt64
  snapshot : Except String Unit

namespace ServerCall

/-- What a call does. -/
def exec (moment : Moment) :
    (call : ServerCall n) → ServerState n → call.Result × ServerState n
  | .db idx call, state =>
      let outcome := call.exec moment.now (state.dbs idx)
      (outcome.1, { state with dbs := Function.update state.dbs idx outcome.2 })
  | .now, state => (moment.now, state)
  | .log idx cmd args, state =>
      ((), { state with log := state.log ++ [(idx, cmd, args)] })
  | .scripts op, state =>
      ((op.apply state.scripts).1,
        { state with scripts := (op.apply state.scripts).2 })
  | .check _, state => ((), state)
  | .snapshot copies, state =>
      match moment.snapshot with
      | .ok () => (.ok (), { state with saved := some copies })
      | .error message => (.error message, state)
  | .subscribe sender channels, state =>
      ((), channels.foldl (ServerState.register sender) state)
  | .receivers channel, state => (state.channels channel, state)
  | .trySend receiver message, state => state.trySend receiver message

/-- The calls that end the process: a check that does not pass, and a method of
the database that panics. -/
def fails (moment : Moment) : ServerCall n → ServerState n → Bool
  | .check passes, _ => !passes
  | .db idx call, state => call.panics moment.now (state.dbs idx)
  | _, _ => false

end ServerCall

namespace Session

/-- Run a program of a connection alone, from a count of calls; the call of
number `n` is made at `clock n`. -/
def run (clock : ℕ → Moment) (session : Session n α) (state : ServerState n × ℕ) :
    Option (α × ServerState n × ℕ) :=
  session.runGuarded (Program.timed ServerCall.exec clock)
    (fun call state => ServerCall.fails (clock state.2) call state.1) state

variable {clock : ℕ → Moment}

theorem run_bind
    (session : Session n α) (follow : α → Session n β) (state : ServerState n × ℕ) :
    run clock (session >>= follow) state =
      (run clock session state).bind fun outcome =>
        run clock (follow outcome.1) outcome.2 :=
  Program.runGuarded_bind _ _ _ _ _

theorem run_map
    (f : α → β) (session : Session n α) (state : ServerState n × ℕ) :
    run clock (f <$> session) state =
      (run clock session state).map fun outcome => (f outcome.1, outcome.2) :=
  Program.runGuarded_map _ _ _ _ _

/-- A call that does not end the process. -/
theorem run_perform_bind
    {call : ServerCall n} {state : ServerState n} {tick : ℕ}
    (passes : call.fails (clock tick) state = false)
    (follow : call.Result → Session n β) :
    run clock (call.perform >>= follow) (state, tick) =
      run clock (follow (call.exec (clock tick) state).1)
        ((call.exec (clock tick) state).2, tick + 1) := by
  rw [run, ServerCall.perform, Program.perform_bind, Program.runGuarded_call]
  dsimp only
  rw [passes, if_neg Bool.false_ne_true]
  rfl

end Session

namespace Server

/-- The requests of one connection, one after the other. -/
def serve (engine : ScriptEngine) (persist : Option Bool) :
    Client engine n → List (Command × List Bytes) →
      Session n (List FastResponse × Client engine n)
  | client, [] => return ([], client)
  | client, (cmd, args) :: requests => do
      let (reply, client) ← handleRequest engine persist client cmd args
      let (replies, client) ← serve engine persist client requests
      return (reply :: replies, client)

end Server

/-- An engine whose scripts do nothing. -/
def idleEngine : ScriptEngine where
  Context := Unit
  new := ()
  eval := fun _ _ _ _ => .pure (.null, ())

/-- The database of a server that has only one. -/
abbrev onlyDb : Fin 1 := 0

/-- A client as `handle_client` starts. -/
def Client.fresh : Client idleEngine 1 := ⟨0, 0, false, [], none⟩

end Cache
end MuonJs
