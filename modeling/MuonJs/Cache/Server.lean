import MuonJs.Cache.Frames
import MuonJs.Cache.Handlers
import MuonJs.Cache.Saves

/-!
# The dispatch of requests

What `handle_client` does with one request, as a program over the calls that
reach outside the connection: the databases, the clock, the log queue, the
script cache, the persistence, and the registry and queues of the channels.

Scripts run in an engine that is a parameter: the engine, with the fast path of
`redis.call`, decides which calls a script makes.
-/

namespace MuonJs
namespace Cache

namespace Handler

/-! ## Commands without a database -/

/-- The script that `FUNCTION LOAD` stores: the text after a first line that
begins with `#!`. -/
def stripLuaShebang (script : String) : String :=
  if script.startsWith "#!" then
    String.ofList ((script.toList.dropWhile (· ≠ '\n')).drop 1)
  else script

/-- `to_upper_ascii(..) == ..`. -/
def isWord (input : Bytes) (word : String) : Bool :=
  toAsciiUppercase input == asBytes word

/-- `handle_script_command`. -/
def handleScriptCommand (args : List Bytes) : Handler RespValue :=
  match args with
  | [] => return .wrongArguments "SCRIPT"
  | sub :: rest =>
      if isWord sub "LOAD" then
        match rest with
        | [body] =>
            match fromUtf8 body with
            | none => return .error "ERR invalid script"
            | some script => do
                let sha := sha1Hex (asBytes script)
                perform (.scripts (.insert sha script))
                return .blob (asBytes sha)
        | _ => return .wrongArguments "SCRIPT LOAD"
      else if isWord sub "EXISTS" then
        if rest.isEmpty then return .wrongArguments "SCRIPT EXISTS"
        else do
          let found ← perform
            (.scripts (.containsEach (rest.map fun sha => (fromUtf8 sha).getD "")))
          return .array (found.map .flag)
      else if isWord sub "FLUSH" then do
        perform (.scripts .clear)
        return .ok
      else return .error "ERR unknown subcommand for SCRIPT"

/-- `FUNCTION`. -/
def handleFunction (args : List Bytes) : Handler RespValue :=
  match args with
  | [] => return .wrongArguments "FUNCTION"
  | sub :: rest =>
      if isWord sub "LIST" then return .array []
      else if isWord sub "FLUSH" then do
        perform (.scripts .clear)
        return .ok
      else if isWord sub "LOAD" then
        match rest with
        | [] => return .wrongArguments "FUNCTION LOAD"
        | first :: others =>
            let body := match others with
              | [second] => if isWord first "REPLACE" then second else first
              | _ => first
            match fromUtf8 body with
            | none => return .error "ERR invalid function"
            | some script => do
                let body := stripLuaShebang script
                perform (.scripts (.insert (sha1Hex (asBytes body)) body))
                return .ok
      else return .error "ERR unknown subcommand for FUNCTION"

/-- `CONFIG`, `SLOWLOG` and `CLIENT`: one subcommand with a fixed reply. -/
def subcommand (args : List Bytes) (word : String) (reply : RespValue) :
    RespValue :=
  match args with
  | sub :: _ => if isWord sub word then reply else .error "ERR syntax error"
  | [] => .error "ERR syntax error"

/-- The commands answered alike with and without a database. -/
def metaCmds (cmd : Command) (args : List Bytes) : Option (Handler RespValue) :=
  match cmd with
  | .info => some (return .blob (asBytes "muoncache:1\r\n"))
  | .script => some (handleScriptCommand args)
  | .config => some (return subcommand args "GET" (.array []))
  | .functionCmd => some (handleFunction args)
  | .client => some
      (return subcommand args "LIST" (.blob (asBytes "id=1 addr=127.0.0.1:0")))
  | .slowlog => some (return subcommand args "GET" (.array []))
  | .replicaof => some (return .error "ERR replication not implemented")
  | .quit => some (return .ok)
  | _ => none

/-- `handle_no_db_command`, with the index of the database selected afterwards. -/
def handleNoDbCommand (current : Fin n) (cmd : Command) (args : List Bytes) :
    Option (Handler (RespValue × Fin n)) :=
  match cmd with
  | .ping => some (match args with
      | arg :: _ => return (.blob arg, current)
      | [] => return (.simple "PONG", current))
  | .echo => some (match args with
      | arg :: _ => return (.blob arg, current)
      | [] => return (.wrongArguments "ECHO", current))
  | .select => some (match args.head?.bind parseUsize with
      | some idx =>
          if inRange : idx < n then return (.ok, ⟨idx, inRange⟩)
          else return (.error "ERR invalid DB index", current)
      | none => return (.error "ERR invalid DB index", current))
  | _ => (metaCmds cmd args).map fun handler => do return (← handler, current)

/-! ## Commands on one database -/

/-- The commands that `handle_command` answers itself. -/
def inlineCmds (context : HandlerContext) (cmd : Command) (args : List Bytes) :
    Handler RespValue :=
  match cmd with
  | .flushall => return .error "ERR FLUSHALL requires async context"
  | .eval | .evalsha => return .error "ERR EVAL cannot be used recursively"
  | .save => return .error "ERR SAVE requires async context"
  | .bgsave =>
      return if context.persist.isSome then .simple "Background saving started"
        else .error "ERR persistence not configured"
  | cmd => (metaCmds cmd args).getD
      (return .error ("ERR unknown command '" ++ cmd.name ++ "'"))

/-- `handle_command`. -/
def handleCommand (context : HandlerContext) (cmd : Command)
    (args : List Bytes) : Handler RespValue :=
  ((keyCmds context cmd args).orElse fun _ =>
    (stringCmds context cmd args).orElse fun _ =>
    (hashCmds context cmd args).orElse fun _ =>
    (listCmds context cmd args).orElse fun _ =>
    (setCmds context cmd args).orElse fun _ =>
    (zsetCmds context cmd args).orElse fun _ =>
    streamCmds context cmd args).getD (inlineCmds context cmd args)

end Handler

/-! ## The server -/

/-- What a connection does to the outside. -/
inductive ServerCall (n : ℕ)
  | db (idx : Fin n) (call : Call)
  | now
  | log (idx : ℕ) (cmd : Command) (args : List Bytes)
  | scripts (op : ScriptOp)
  | check (passes : Bool)
  | snapshot (copies : Dbs n)
  | subscribe (sender : ℕ) (channels : List Bytes)
  | receivers (channel : Bytes)
  | trySend (receiver : ℕ) (message : RespValue)

namespace ServerCall

/-- What a connection learns from it; a failed snapshot has a message. -/
@[reducible] def Result : ServerCall n → Type
  | .db _ call => call.Result
  | .now => UInt64
  | .log .. | .check _ | .subscribe .. => Unit
  | .scripts op => op.Result
  | .snapshot _ => Except String Unit
  | .receivers _ => List ℕ
  | .trySend .. => Bool

/-- The calls of a connection as a signature. -/
@[reducible] def signature (n : ℕ) : Signature := ⟨ServerCall n, Result⟩

/-- Issue one call. -/
def perform (call : ServerCall n) : Program (signature n) call.Result :=
  @Program.perform (signature n) call

end ServerCall

/-- A program of a connection. -/
abbrev Session (n : ℕ) (α : Type) := Program (ServerCall.signature n) α

/-- What a call of a handler is on one of the databases. -/
def HandlerCall.onDb (idx : Fin n) : (call : HandlerCall) → Session n call.Result
  | .db call => ServerCall.perform (.db idx call)
  | .now => ServerCall.perform .now
  | .log cmd args => ServerCall.perform (.log idx.val cmd args)
  | .scripts op => ServerCall.perform (.scripts op)
  | .check passes => ServerCall.perform (.check passes)

/-- Run a handler on one of the databases. -/
def onDb (idx : Fin n) (handler : Handler α) : Session n α :=
  handler.interpret (HandlerCall.onDb idx)

/-- Call a method of one of the databases. -/
def dbMethod (idx : Fin n) (method : Db.Method α) : Session n α :=
  method.interpret fun call => ServerCall.perform (.db idx call)

/-- What a script does: a call that the fast path of `redis.call` makes on the
database selected at its start, or `redis.call` with a command. -/
inductive ScriptCall
  | fast (call : Call)
  | redisCall (name : Bytes) (args : List Bytes)

namespace ScriptCall

/-- What a script learns from it; an unknown command is an exception. -/
@[reducible] def Result : ScriptCall → Type
  | .fast call => call.Result
  | .redisCall .. => Except String RespValue

/-- The calls of a script as a signature. -/
@[reducible] def signature : Signature := ⟨ScriptCall, Result⟩

end ScriptCall

/-- The script engine: its contexts, and what a script does in a context with
its keys and arguments. -/
structure ScriptEngine where
  Context : Type
  new : Context
  eval : Context → String → List Bytes → List Bytes →
    Program ScriptCall.signature (RespValue × Context)

/-- The state of a connection; `sender` is its queue of published messages. -/
structure Client (engine : ScriptEngine) (n : ℕ) where
  sender : ℕ
  current : Fin n
  inMulti : Bool
  queued : List (Command × List Bytes)
  script : Option engine.Context

namespace Server

/-- `snapshot_dbs_for_persistence`. -/
def snapshotDbs : List (Fin n) → Session n (Dbs n)
  | [] => return fun _ => .empty
  | idx :: indices => do
      let items ← dbMethod idx Db.snapshotItems
      let copies ← snapshotDbs indices
      return Function.update copies idx (Db.empty.setItems items)

/-- `handle_save_like_command`. -/
def handleSaveLikeCommand (persist : Option Bool) (cmd : Command)
    (args : List Bytes) : Option (Session n RespValue) :=
  if cmd = .save ∨ cmd = .bgsave then some (
    if ¬args.isEmpty then return .wrongArguments cmd.name
    else do
      let copies ← snapshotDbs (List.finRange n)
      if persist.isSome then
        match ← ServerCall.perform (.snapshot copies) with
        | .ok () => return .ok
        | .error message =>
            return .error ("ERR persistence failed: " ++ message)
      else return .error "ERR persistence not configured")
  else none

/-- Flush the databases one after the other. -/
def flushAll : List (Fin n) → Session n Unit
  | [] => return ()
  | idx :: indices => do
      let _ ← dbMethod idx Db.flush
      flushAll indices

/-- `handle_flushall_command`. -/
def handleFlushallCommand (persist : Option Bool) (args : List Bytes)
    (skipAof : Bool) : Session n RespValue :=
  if ¬args.isEmpty then return .wrongArguments "FLUSHALL"
  else do
    flushAll (List.finRange n)
    if skipAof = false ∧ persist = some true then
      ServerCall.perform (.log 0 .flushall args)
    return .ok

/-- The slow path of `redis_call`, on the selected database. -/
def redisCall (persist : Option Bool) (current : Fin n) (name : Bytes)
    (args : List Bytes) : Session n (Except String RespValue × Fin n) :=
  match parseCommand name with
  | none =>
      return (.error ("ERR unknown command '" ++ fromUtf8Lossy name ++ "'"), current)
  | some cmd =>
      match Handler.handleNoDbCommand current cmd args with
      | some handler => do
          let (reply, current) ← onDb current handler
          return (.ok reply, current)
      | none => do
          let reply ← onDb current
            (Handler.handleCommand ⟨persist, true⟩ cmd args)
          return (.ok reply, current)

/-- Run a script; it can select another database. -/
def runScript (persist : Option Bool) (held : Fin n) :
    Program ScriptCall.signature α → Fin n → Session n (α × Fin n)
  | .pure value, current => return (value, current)
  | .call (.fast call) next, current => do
      let result ← ServerCall.perform (.db held call)
      runScript persist held (next result) current
  | .call (.redisCall name args) next, current => do
      let (result, current) ← redisCall persist current name args
      runScript persist held (next result) current

/-- The keys and arguments of a script, or the reply to a wrong number of keys.
One is added to this number modulo `2 ^ 64`, and the arguments are sliced there. -/
def splitEvalArgs (args : List Bytes) :
    Session n (Except RespValue (List Bytes × List Bytes)) :=
  match args with
  | [] => return .error (.error "ERR invalid number of keys")
  | count :: rest =>
      match parseUsize count with
      | none => return .error (.error "ERR invalid number of keys")
      | some numkeys =>
          if args.length < (1 + numkeys) % 2 ^ 64 then
            return .error (.error "ERR invalid number of keys")
          else do
            ServerCall.perform (.check (1 ≤ (1 + numkeys) % 2 ^ 64))
            return .ok (rest.take numkeys, rest.drop numkeys)

/-- The reply to a hash that is not in the cache. -/
def noScript : String := "NOSCRIPT No matching script. Please use EVAL."

/-- `eval_script` and `eval_script_sha` up to the run of the script: the script
with its keys and arguments, or a reply. -/
def prepareEval (cmd : Command) (args : List Bytes) :
    Session n (Except RespValue (String × List Bytes × List Bytes)) :=
  match args with
  | body :: first :: rest =>
      match fromUtf8 body with
      | none => return .error (.error "ERR invalid script")
      | some text =>
          if cmd = .eval then do
            ServerCall.perform
              (.scripts (.insert (sha1Hex (asBytes text)) text))
            return (← splitEvalArgs (first :: rest)).map fun split => (text, split)
          else do
            match ← ServerCall.perform (.scripts (.get text)) with
            | none => return .error (.error noScript)
            | some script =>
                return (← splitEvalArgs (first :: rest)).map fun split =>
                  (script, split)
  | _ => return .error (.wrongArguments cmd.name)

/-- `handle_eval_command`, with `eval_wrapped_script`. -/
def handleEvalCommand (engine : ScriptEngine) (persist : Option Bool)
    (client : Client engine n) (cmd : Command) (args : List Bytes) :
    Session n (RespValue × Client engine n) := do
  let context := client.script.getD engine.new
  match ← prepareEval cmd args with
  | .error reply => return (reply, { client with script := some context })
  | .ok (script, keys, argv) => do
      let ((reply, context), current) ← runScript persist client.current
        (engine.eval context script keys argv) client.current
      return (reply, { client with current := current, script := some context })

/-- The commands that are run alike directly and from `EXEC`. -/
def runCommand (engine : ScriptEngine) (persist : Option Bool)
    (client : Client engine n) (cmd : Command) (args : List Bytes) :
    Session n (RespValue × Client engine n) :=
  match handleSaveLikeCommand persist cmd args with
  | some save => do return (← save, client)
  | none =>
      match Handler.handleNoDbCommand client.current cmd args with
      | some handler => do
          let (reply, current) ← onDb client.current handler
          return (reply, { client with current := current })
      | none =>
          if cmd = .flushall then do
            return (← handleFlushallCommand persist args persist.isNone, client)
          else if cmd = .eval ∨ cmd = .evalsha then
            handleEvalCommand engine persist client cmd args
          else do
            let reply ← onDb client.current
              (Handler.handleCommand ⟨persist, persist.isNone⟩ cmd args)
            return (reply, client)

/-- `EXEC`: the queued commands one after the other. -/
def runQueued (engine : ScriptEngine) (persist : Option Bool) :
    Client engine n → List (Command × List Bytes) →
      Session n (List RespValue × Client engine n)
  | client, [] => return ([], client)
  | client, (cmd, args) :: queued => do
      let (reply, client) ← runCommand engine persist client cmd args
      let (replies, client) ← runQueued engine persist client queued
      return (reply :: replies, client)

/-- `handle_lrange_fast`. -/
def handleLrangeFast (current : Fin n) (args : List Bytes) :
    Session n (Except RespValue (List Bytes)) :=
  match args with
  | key :: start :: stop :: _ => do
      match ← ServerCall.perform (.db current (.entry key
          (.listRange ((parseI64 start).getD 0) ((parseI64 stop).getD (-1))))) with
      | .ok items => return .ok items
      | .error () => return .error .wrongType
  | _ => return .error (.wrongArguments "LRANGE")

/-- The paths of `handle_client` for the most common commands. -/
def fastPath (persist : Option Bool) (current : Fin n) (cmd : Command)
    (args : List Bytes) : Option (Session n FastResponse) :=
  match cmd, args with
  | .set, [key, value] =>
      if persist.isNone then some do
        ServerCall.perform (.db current (.entry key (.setStringRef value none)))
        return .value .ok
      else none
  | .get, [key] => some do
      return .value (Handler.orWrongType .blobOrNull
        (← ServerCall.perform (.db current (.entry key .getString))))
  | .hset, [key, field, value] =>
      if persist.isNone then some do
        return .value (Handler.orWrongType .flag (← ServerCall.perform
          (.db current (.entry key (.hashSetRef field value)))))
      else none
  | .lrange, args => some do
      match ← handleLrangeFast current args with
      | .ok items => return .blobArray items
      | .error reply => return .value reply
  | _, _ => none

/-- `handle_subscribe`. -/
def handleSubscribe (sender : ℕ) (channels : List Bytes) : Session n RespValue :=
  match channels with
  | [] => return .wrongArguments "SUBSCRIBE"
  | channel :: _ => do
      ServerCall.perform (.subscribe sender channels)
      return .array [.blob (asBytes "subscribe"), .blob channel,
        .integer (Shard.lenI64 channels)]

/-- Send a message to receivers one by one, and count the deliveries. -/
def deliver (message : RespValue) (delivered : Int64) :
    List ℕ → Session n Int64
  | [] => return delivered
  | receiver :: receivers => do
      let isSent ← ServerCall.perform (.trySend receiver message)
      deliver message (if isSent then delivered + 1 else delivered) receivers

/-- `handle_publish`. -/
def handlePublish (args : List Bytes) : Session n RespValue :=
  match args with
  | [channel, message] => do
      let receivers ← ServerCall.perform (.receivers channel)
      return .integer (← deliver
        (.array [.blob (asBytes "message"), .blob channel, .blob message]) 0
        receivers)
  | _ => return .wrongArguments "PUBLISH"

/-- One request. -/
def handleRequest (engine : ScriptEngine) (persist : Option Bool)
    (client : Client engine n) (cmd : Command) (args : List Bytes) :
    Session n (FastResponse × Client engine n) :=
  if cmd = .subscribe then do
    return (.value (← handleSubscribe client.sender args), client)
  else if cmd = .publish then do
    return (.value (← handlePublish args), client)
  else if client.inMulti ∧ cmd ≠ .execQueued ∧ cmd ≠ .discard ∧ cmd ≠ .multi then
    return (.value (.simple "QUEUED"),
      { client with queued := client.queued ++ [(cmd, args)] })
  else if cmd = .multi then
    if client.inMulti then
      return (.value (.error "ERR MULTI calls can not be nested"), client)
    else return (.value .ok, { client with inMulti := true, queued := [] })
  else if cmd = .discard then
    if client.inMulti then
      return (.value .ok, { client with inMulti := false, queued := [] })
    else return (.value (.error "ERR DISCARD without MULTI"), client)
  else if cmd = .execQueued then
    if client.inMulti then do
      let (replies, client) ← runQueued engine persist
        { client with inMulti := false, queued := [] } client.queued
      return (.value (.array replies), client)
    else return (.value (.error "ERR EXEC without MULTI"), client)
  else
    match fastPath persist client.current cmd args with
    | some reply => do return (← reply, client)
    | none => do
        let (reply, client) ← runCommand engine persist client cmd args
        return (.value reply, client)

end Server
end Cache
end MuonJs
