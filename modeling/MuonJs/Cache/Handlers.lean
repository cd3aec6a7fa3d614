import MuonJs.Cache.Call
import MuonJs.Cache.Resp
import MuonJs.Cache.Sha1

/-!
# Command handlers

The handlers of `cmd_handlers.rs` and `handle_command`, as programs over what
they do to the outside: calls of the database they were given, readings of the
clock, entries sent to the log, and accesses to the script cache.  A group
returns `none` for a command that is not its own.

Most commands make one call and turn its result into a reply (`answer`), or log
the command in between (`change`).
-/

namespace MuonJs
namespace Cache

/-- The scripts by their hash. -/
abbrev ScriptCache := String → Option String

/-- What happens to the script cache under one lock. -/
inductive ScriptOp
  | insert (sha script : String)
  | containsEach (shas : List String)
  | get (sha : String)
  | clear

namespace ScriptOp

/-- What an access to the script cache returns. -/
@[reducible] def Result : ScriptOp → Type
  | .insert .. | .clear => Unit
  | .containsEach _ => List Bool
  | .get _ => Option String

/-- An access to the script cache. -/
def apply : (op : ScriptOp) → ScriptCache → op.Result × ScriptCache
  | .insert sha script, cache => ((), Function.update cache sha (some script))
  | .containsEach shas, cache => (shas.map fun sha => (cache sha).isSome, cache)
  | .get sha, cache => (cache sha, cache)
  | .clear, _ => ((), fun _ => none)

end ScriptOp

/-- What a handler does to the outside.  A `check` stands where the code slices
or indexes: it passes when the bounds are in order, and otherwise the process
ends there. -/
inductive HandlerCall
  | db (call : Call)
  | now
  | log (cmd : Command) (args : List Bytes)
  | scripts (op : ScriptOp)
  | check (passes : Bool)

namespace HandlerCall

/-- What a handler learns from it. -/
@[reducible] def Result : HandlerCall → Type
  | .db call => call.Result
  | .now => UInt64
  | .log .. | .check _ => Unit
  | .scripts op => op.Result

/-- The calls of a handler as a signature. -/
@[reducible] def signature : Signature := ⟨HandlerCall, Result⟩

end HandlerCall

/-- A program of a handler. -/
abbrev Handler (α : Type) := Program HandlerCall.signature α

/-- What a handler knows besides its command: whether persistence is configured
and its log enabled, and whether the handler is told not to log. -/
structure HandlerContext where
  persist : Option Bool
  skipAof : Bool

namespace Handler

/-- Issue one call. -/
def perform (call : HandlerCall) : Handler call.Result :=
  @Program.perform HandlerCall.signature call

/-- Call a single-key method of the database. -/
def entry (key : Bytes) (op : EntryOp) : Handler op.Result :=
  perform (.db (.entry key op))

/-- Call a method of the database. -/
def db (method : Db.Method α) : Handler α :=
  method.interpret fun call => perform (.db call)

/-- `log_cmd`. -/
def logCmd (context : HandlerContext) (cmd : Command) (args : List Bytes) :
    Handler Unit :=
  if context.skipAof then return ()
  else
    match context.persist with
    | some true => perform (.log cmd args)
    | _ => return ()

/-- Call a single-key method and reply. -/
def answer (key : Bytes) (op : EntryOp) (respond : op.Result → RespValue) :
    Handler RespValue := do
  return respond (← entry key op)

/-- Call a single-key method, log the command when its result asks for it, and
reply. -/
def change (context : HandlerContext) (cmd : Command) (args : List Bytes)
    (key : Bytes) (op : EntryOp) (logs : op.Result → Bool)
    (respond : op.Result → RespValue) : Handler RespValue := do
  let result ← entry key op
  if logs result then logCmd context cmd args
  return respond result

/-- Reply to a success, or with the error message. -/
def orError (message : RespValue) (respond : α → RespValue) :
    Fallible α → RespValue
  | .ok value => respond value
  | .error () => message

/-- Reply to a success, or that the key has another type. -/
def orWrongType (respond : α → RespValue) : Fallible α → RespValue :=
  orError .wrongType respond

/-- A success whose value satisfies the predicate. -/
def okAnd (predicate : α → Bool) : Fallible α → Bool
  | .ok value => predicate value
  | .error () => false

/-- Any success. -/
def isOk : Fallible α → Bool := okAnd fun _ => true

/-! ## String commands -/

/-- The loop of `MSET`. -/
def msetLoop : List Bytes → Handler Unit
  | key :: value :: rest => do
      entry key (.setString value none)
      msetLoop rest
  | _ => return ()

/-- The loop of `MGET`. -/
def mgetLoop : List Bytes → Handler (Fallible (List RespValue))
  | [] => return .ok []
  | key :: keys =>
      Program.andThen (entry key .getString) fun value =>
        Program.andThen (mgetLoop keys) fun values =>
          return .ok (.blobOrNull value :: values)

/-- `GETSET`: the old value is read and the new one set by two calls. -/
def getset (context : HandlerContext) (args : List Bytes) (key value : Bytes) :
    Handler RespValue := do
  match ← entry key .getString with
  | .error () => return .wrongType
  | .ok previous =>
      entry key (.setString value none)
      logCmd context .getset args
      return .blobOrNull previous

/-- The counter commands, which differ in where the change comes from. -/
def incr (context : HandlerContext) (cmd : Command) (args : List Bytes)
    (key : Bytes) (delta : Int64) : Handler RespValue :=
  change context cmd args key (.incrBy delta) isOk (orError .notInteger .integer)

/-- `string_cmds`. -/
def stringCmds (context : HandlerContext) (cmd : Command) (args : List Bytes) :
    Option (Handler RespValue) :=
  match cmd with
  | .dbsize => some do return .integer (Int64.ofNat (← db Db.len))
  | .get => some (match args with
      | key :: _ => answer key .getString (orWrongType .blobOrNull)
      | [] => return .wrongArguments "GET")
  | .setnx => some (match args with
      | key :: value :: _ =>
          change context cmd args key (.setNx value) (okAnd id)
            (orWrongType .flag)
      | _ => return .wrongArguments "SETNX")
  | .mset => some (
      if args.length < 2 ∨ args.length % 2 ≠ 0 then
        return .wrongArguments "MSET"
      else do
        msetLoop args
        logCmd context cmd args
        return .ok)
  | .mget => some (
      if args.isEmpty then return .wrongArguments "MGET"
      else do
        return orWrongType .array (← mgetLoop args))
  | .getset => some (match args with
      | key :: value :: _ => getset context args key value
      | _ => return .wrongArguments "GETSET")
  | .append => some (match args with
      | key :: value :: _ =>
          change context cmd args key (.append value) isOk
            (orWrongType .integer)
      | _ => return .wrongArguments "APPEND")
  | .incr => some (match args with
      | key :: _ => incr context cmd args key 1
      | [] => return .wrongArguments "INCR")
  | .incrby => some (match args with
      | key :: delta :: _ => incr context cmd args key ((parseI64 delta).getD 0)
      | _ => return .wrongArguments "INCRBY")
  | .decr => some (match args with
      | key :: _ => incr context cmd args key (-1)
      | [] => return .wrongArguments "DECR")
  | .decrby => some (match args with
      | key :: delta :: _ =>
          incr context cmd args key (-(parseI64 delta).getD 0)
      | _ => return .wrongArguments "DECRBY")
  | .strlen => some (match args with
      | key :: _ => answer key .getString
          (orWrongType fun value => .integer (value.elim 0 Shard.lenI64))
      | [] => return .wrongArguments "STRLEN")
  | _ => none

/-! ## Hash commands -/

/-- The loop of `HSET`; the result is the number of new fields. -/
def hsetLoop (key : Bytes) (added : Int64) :
    List Bytes → Handler (Fallible Int64)
  | field :: value :: rest =>
      Program.andThen (entry key (.hashSetRef field value)) fun isNew =>
        hsetLoop key (if isNew then added + 1 else added) rest
  | _ => return .ok added

/-- Log the command after a success and reply. -/
def logAndReply (context : HandlerContext) (cmd : Command) (args : List Bytes)
    (respond : α → RespValue) : Fallible α → Handler RespValue
  | .ok value => do
      logCmd context cmd args
      return respond value
  | .error () => return .wrongType

/-- `hash_cmds`. -/
def hashCmds (context : HandlerContext) (cmd : Command) (args : List Bytes) :
    Option (Handler RespValue) :=
  match cmd with
  | .hset => some (
      if args.length < 3 ∨ args.length % 2 = 0 then
        return .wrongArguments "HSET"
      else do
        logAndReply context cmd args .integer
          (← hsetLoop (args.headD []) 0 args.tail))
  | .hget => some (match args with
      | key :: field :: _ => answer key (.hashGet field) (orWrongType .blobOrNull)
      | _ => return .wrongArguments "HGET")
  | .hdel => some (match args with
      | key :: field :: fields =>
          change context cmd args key (.hashDel (field :: fields)) isOk
            (orWrongType .integer)
      | _ => return .wrongArguments "HDEL")
  | .hgetall => some (match args with
      | key :: _ => answer key .hashGetall
          (orWrongType fun items =>
            .blobs (items.flatMap fun (field, value) => [field, value]))
      | [] => return .wrongArguments "HGETALL")
  | .hlen => some (match args with
      | key :: _ => answer key .hashLen (orWrongType .integer)
      | [] => return .wrongArguments "HLEN")
  | .hexists => some (match args with
      | key :: field :: _ => answer key (.hashExists field) (orWrongType .flag)
      | _ => return .wrongArguments "HEXISTS")
  | .hincrby => some (match args with
      | key :: field :: delta :: _ =>
          match parseI64 delta with
          | some delta =>
              change context cmd args key (.hashIncrBy field delta) isOk
                (orError (.error "ERR hash value is not an integer") .integer)
          | none => return .notInteger
      | _ => return .wrongArguments "HINCRBY")
  | .hsetnx => some (match args with
      | key :: field :: value :: _ =>
          change context cmd args key (.hashSetNx field value) (okAnd id)
            (orWrongType .flag)
      | _ => return .wrongArguments "HSETNX")
  | _ => none

/-! ## List commands -/

/-- The loop of `LPOP` and `RPOP` with a count. -/
def popLoop (key : Bytes) (left : Bool) :
    ℕ → Handler (Fallible (List Bytes))
  | 0 => return .ok []
  | count + 1 =>
      Program.andThen (entry key (.listPop left)) fun popped =>
        match popped with
        | some value =>
            Program.andThen (popLoop key left count) fun values =>
              return .ok (value :: values)
        | none => return .ok []

/-- `LPOP` and `RPOP`. -/
def pop (context : HandlerContext) (cmd : Command) (args : List Bytes) :
    Handler RespValue :=
  match args with
  | [key] =>
      change context cmd args key (.listPop (cmd == .lpop))
        (okAnd Option.isSome) (orWrongType .blobOrNull)
  | [key, count] =>
      let count := (parseI64 count).getD 0
      if count ≤ 0 then return .notInteger
      else do
        match ← popLoop key (cmd == .lpop) count.toNatClampNeg with
        | .error () => return .wrongType
        | .ok [] => return .null
        | .ok values =>
            logCmd context cmd args
            return .blobs values
  | _ => return .wrongArguments cmd.name

/-- `LPUSH`, `RPUSH`, `LPUSHX` and `RPUSHX`. -/
def push (context : HandlerContext) (cmd : Command) (args : List Bytes)
    (op : List Bytes → EntryOp) (logs : ∀ values, (op values).Result → Bool)
    (respond : ∀ values, (op values).Result → RespValue) : Handler RespValue :=
  match args with
  | key :: value :: values =>
      change context cmd args key (op (value :: values)) (logs _) (respond _)
  | _ => return .wrongArguments cmd.name

/-- `list_cmds`. -/
def listCmds (context : HandlerContext) (cmd : Command) (args : List Bytes) :
    Option (Handler RespValue) :=
  match cmd with
  | .lpush | .rpush => some (
      push context cmd args (fun values => .listPush values (cmd == .lpush))
        (fun _ => isOk) fun _ => orWrongType .integer)
  | .lpop | .rpop => some (pop context cmd args)
  | .lrange => some (match args with
      | key :: start :: stop :: _ =>
          answer key
            (.listRange ((parseI64 start).getD 0) ((parseI64 stop).getD (-1)))
            (orWrongType .blobs)
      | _ => return .wrongArguments "LRANGE")
  | .llen => some (match args with
      | key :: _ => answer key .listLen (orWrongType .integer)
      | [] => return .wrongArguments "LLEN")
  | .lindex => some (match args with
      | key :: index :: _ =>
          match parseI64 index with
          | none => return .notInteger
          | some index => answer key (.listIndex index) (orWrongType .blobOrNull)
      | _ => return .wrongArguments "LINDEX")
  | .lset => some (match args with
      | key :: index :: value :: _ =>
          match parseI64 index with
          | none => return .notInteger
          | some index =>
              change context cmd args key (.listSet index value) isOk
                (orWrongType fun () => .ok)
      | _ => return .wrongArguments "LSET")
  | .linsert => some (match args with
      | key :: pos :: pivot :: value :: _ =>
          let upper := toAsciiUppercase pos
          if upper = asBytes "BEFORE" ∨ upper = asBytes "AFTER" then
            change context cmd args key
              (.listInsert (upper == asBytes "BEFORE") pivot value)
              (okAnd fun len => 0 < len) (orWrongType .integer)
          else return .error "ERR syntax error"
      | _ => return .wrongArguments "LINSERT")
  | .lrem => some (match args with
      | key :: count :: value :: _ =>
          match parseI64 count with
          | none => return .notInteger
          | some count =>
              change context cmd args key (.listRem count value)
                (okAnd fun removed => 0 < removed) (orWrongType .integer)
      | _ => return .wrongArguments "LREM")
  | .lpushx | .rpushx => some (
      push context cmd args (fun values => .listPushX values (cmd == .lpushx))
        (fun _ => okAnd fun len => 0 < len) fun _ => orWrongType .integer)
  | .ltrim => some (match args with
      | key :: start :: stop :: _ =>
          change context cmd args key
            (.listTrim ((parseI64 start).getD 0) ((parseI64 stop).getD (-1)))
            isOk (orWrongType fun () => .ok)
      | _ => return .wrongArguments "LTRIM")
  | _ => none

/-! ## Set commands -/

/-- `set_cmds`. -/
def setCmds (context : HandlerContext) (cmd : Command) (args : List Bytes) :
    Option (Handler RespValue) :=
  match cmd with
  | .sadd => some (match args with
      | key :: member :: members =>
          change context cmd args key (.setAdd (member :: members)) isOk
            (orWrongType .integer)
      | _ => return .wrongArguments "SADD")
  | .srem => some (match args with
      | key :: member :: members =>
          change context cmd args key (.setRemove (member :: members)) isOk
            (orWrongType .integer)
      | _ => return .wrongArguments "SREM")
  | .smembers => some (match args with
      | key :: _ => answer key .setMembers (orWrongType .blobs)
      | [] => return .wrongArguments "SMEMBERS")
  | .sismember => some (match args with
      | key :: member :: _ =>
          answer key (.setIsMember member) (orWrongType .flag)
      | _ => return .wrongArguments "SISMEMBER")
  | .scard => some (match args with
      | key :: _ => answer key .setCard (orWrongType .integer)
      | [] => return .wrongArguments "SCARD")
  | .smove => some (match args with
      | source :: dest :: member :: _ => do
          let moved ← perform (.db (.setMove source dest member))
          if okAnd id moved then logCmd context cmd args
          return orWrongType .flag moved
      | _ => return .wrongArguments "SMOVE")
  | .sunion => some (
      if args.isEmpty then return .wrongArguments "SUNION"
      else do return orWrongType .blobs (← db (Db.setUnion args)))
  | .sinter => some (
      if args.isEmpty then return .wrongArguments "SINTER"
      else do return orWrongType .blobs (← db (Db.setInter args)))
  | _ => none

/-! ## Sorted-set commands -/

/-- The loop of `ZADD`; the result is the number of new members. -/
def zaddLoop (key : Bytes) (added : Int64) :
    List Bytes → Handler (Fallible Int64)
  | score :: member :: rest =>
      Program.andThen
        (entry key (.zadd ((parseF64 score).getD F64.zero) member)) fun isNew =>
        zaddLoop key (if isNew then added + 1 else added) rest
  | _ => return .ok added

/-- `zset_cmds`. -/
def zsetCmds (context : HandlerContext) (cmd : Command) (args : List Bytes) :
    Option (Handler RespValue) :=
  match cmd with
  | .zadd => some (
      if args.length < 3 ∨ (args.length - 1) % 2 ≠ 0 then
        return .wrongArguments "ZADD"
      else do
        logAndReply context cmd args .integer
          (← zaddLoop (args.headD []) 0 args.tail))
  | .zrange => some (match args with
      | key :: start :: stop :: _ =>
          answer key
            (.zrange ((parseI64 start).getD 0) ((parseI64 stop).getD (-1)))
            (orWrongType .blobs)
      | _ => return .wrongArguments "ZRANGE")
  | .zrem => some (match args with
      | key :: member :: members =>
          change context cmd args key (.zrem (member :: members))
            (okAnd fun removed => 0 < removed) (orWrongType .integer)
      | _ => return .wrongArguments "ZREM")
  | .zcard => some (match args with
      | key :: _ => answer key .zcard (orWrongType .integer)
      | [] => return .wrongArguments "ZCARD")
  | _ => none

/-! ## Stream commands -/

/-- The field-value pairs of `XADD`. -/
def fieldPairs : List Bytes → List (Bytes × Bytes)
  | field :: value :: rest => (field, value) :: fieldPairs rest
  | _ => []

/-- The reply of `XRANGE` and `XREVRANGE`. -/
def streamReply (items : List StreamEntry) : RespValue :=
  .array (items.map fun (id, fields) =>
    .array [.blob (asBytes id),
      .blobs (fields.flatMap fun (field, value) => [field, value])])

/-- `stream_cmds`. -/
def streamCmds (context : HandlerContext) (cmd : Command) (args : List Bytes) :
    Option (Handler RespValue) :=
  match cmd with
  | .xadd => some (
      if args.length < 4 ∨ args.length % 2 ≠ 0 then
        return .wrongArguments "XADD"
      else
        match args with
        | key :: id :: fields =>
            match fromUtf8 id with
            | none => return .error "ERR invalid stream ID"
            | some id =>
                change context cmd args key (.streamAdd id (fieldPairs fields))
                  isOk (orError (.error "ERR invalid stream ID") fun id =>
                    .blob (asBytes id))
        | _ => return .wrongArguments "XADD")
  | .xrange => some (match args with
      | key :: start :: stop :: _ =>
          answer key
            (.streamRange ((fromUtf8 start).getD "-") ((fromUtf8 stop).getD "+"))
            (orWrongType streamReply)
      | _ => return .wrongArguments "XRANGE")
  | .xrevrange => some (match args with
      | key :: stop :: start :: _ =>
          answer key
            (.streamRevRange ((fromUtf8 stop).getD "+")
              ((fromUtf8 start).getD "-"))
            (orWrongType streamReply)
      | _ => return .wrongArguments "XREVRANGE")
  | .xlen => some (match args with
      | key :: _ => answer key .streamLen (orWrongType .integer)
      | [] => return .wrongArguments "XLEN")
  | .xdel => some (match args with
      | key :: id :: ids =>
          change context cmd args key
            (.streamDel ((id :: ids).filterMap fromUtf8)) isOk
            (orWrongType .integer)
      | _ => return .wrongArguments "XDEL")
  | _ => none

/-! ## Key commands -/

/-- The option loop of `parse_set_args`. -/
def setOptions (expireMs : Option UInt64) :
    List Bytes → Except String (Option UInt64)
  | [] => .ok expireMs
  | [_] => .error "ERR syntax error"
  | option :: value :: rest =>
      let number := (parseU64 value).getD 0
      if toAsciiUppercase option = asBytes "EX" then
        setOptions (some (saturatingMulU64 number 1000)) rest
      else if toAsciiUppercase option = asBytes "PX" then
        setOptions (some number) rest
      else .error "ERR syntax error"

/-- `parse_set_args`. -/
def parseSetArgs : List Bytes → Except String (Bytes × Bytes × Option UInt64)
  | key :: value :: options =>
      (setOptions none options).map fun expireMs => (key, value, expireMs)
  | _ => .error "ERR wrong number of arguments for 'SET'"

/-- `SET`. -/
def set (context : HandlerContext) (args : List Bytes) : Handler RespValue :=
  match args with
  | [key, value] => do
      entry key (.setStringRef value none)
      logCmd context .set args
      return .ok
  | _ =>
      match parseSetArgs args with
      | .error message => return .error message
      | .ok (key, value, none) => do
          entry key (.setStringRef value none)
          logCmd context .set args
          return .ok
      | .ok (key, value, some ms) => do
          let now ← perform .now
          entry key (.setStringRef value (some (saturatingAddU64 now ms)))
          logCmd context .set args
          return .ok

/-- The loop of `DEL` and `EXISTS`: call a method of every key and count. -/
def countLoop (count : Int64) (op : EntryOp) (isTrue : op.Result → Bool) :
    List Bytes → Handler Int64
  | [] => return count
  | key :: keys => do
      let result ← entry key op
      countLoop (if isTrue result then count + 1 else count) op isTrue keys

/-- `EXPIRE` and `PEXPIRE`. -/
def expire (context : HandlerContext) (cmd : Command) (args : List Bytes)
    (key : Bytes) (ms : UInt64) : Handler RespValue :=
  change context cmd args key (.setExpireMs ms) id .flag

/-- The option loop of `SCAN`: the pattern and the count. -/
def scanOptions (pattern : Bytes) (count : ℕ) :
    List Bytes → Except String (Bytes × ℕ)
  | [] => .ok (pattern, count)
  | [_] => .error "ERR syntax error"
  | option :: value :: rest =>
      if toAsciiUppercase option = asBytes "MATCH" then
        scanOptions value count rest
      else if toAsciiUppercase option = asBytes "COUNT" then
        match parseUsize value with
        | none => .error "ERR invalid COUNT"
        | some count => scanOptions pattern count rest
      else .error "ERR syntax error"

/-- The reply of `SCAN`: the next cursor and the keys from the cursor on.  The
count is added to the cursor modulo `2 ^ 64`. -/
def scanReply (cursor count : ℕ) (keys : List Bytes) : Handler RespValue := do
  let cursor := min cursor keys.length
  let stop := min ((cursor + count) % 2 ^ 64) keys.length
  perform (.check (cursor ≤ stop))
  return .array [.blob (natBytes (if keys.length ≤ stop then 0 else stop)),
    .blobs ((keys.take stop).drop cursor)]

/-- `SCAN`. -/
def scan (args : List Bytes) : Handler RespValue :=
  match args with
  | cursor :: options =>
      match parseUsize cursor with
      | none => return .error "ERR invalid cursor"
      | some cursor =>
          match scanOptions (asBytes "*") 10 options with
          | .error message => return .error message
          | .ok (pattern, count) => do
              scanReply cursor count (← db (Db.keysMatching pattern))
  | [] => return .wrongArguments "SCAN"

/-- `key_cmds`. -/
def keyCmds (context : HandlerContext) (cmd : Command) (args : List Bytes) :
    Option (Handler RespValue) :=
  match cmd with
  | .set => some (set context args)
  | .del => some do
      let removed ← countLoop 0 .remove id args
      logCmd context cmd args
      return .integer removed
  | .keyExists => some do
      return .integer (← countLoop 0 .keyExists id args)
  | .expire => some (match args with
      | key :: sec :: _ =>
          expire context cmd args key
            (saturatingMulU64 ((parseU64 sec).getD 0) 1000)
      | _ => return .wrongArguments "EXPIRE")
  | .pexpire => some (match args with
      | key :: ms :: _ => expire context cmd args key ((parseU64 ms).getD 0)
      | _ => return .wrongArguments "PEXPIRE")
  | .persist => some (match args with
      | key :: _ =>
          change context cmd args key .persist (fun removed => removed == 1)
            .integer
      | [] => return .wrongArguments "PERSIST")
  | .ttl => some (match args with
      | key :: _ => answer key .ttlMs fun ttl =>
          match ttl with
          | some ms => .integer (if 0 ≤ ms then ms / 1000 else ms)
          | none => .integer (-2)
      | [] => return .wrongArguments "TTL")
  | .pttl => some (match args with
      | key :: _ => answer key .ttlMs fun ttl => .integer (ttl.getD (-2))
      | [] => return .wrongArguments "PTTL")
  | .keyType => some (match args with
      | key :: _ => answer key .valueType fun type => .simple (type.getD "none")
      | [] => return .wrongArguments "TYPE")
  | .keys => some (match args with
      | pattern :: _ => do return .blobs (← db (Db.keysMatching pattern))
      | [] => return .wrongArguments "KEYS")
  | .scan => some (scan args)
  | .flushdb => some (
      if args.isEmpty then do
        let _ ← db Db.flush
        logCmd context cmd args
        return .ok
      else return .wrongArguments "FLUSHDB")
  | _ => none

end Handler
end Cache
end MuonJs
