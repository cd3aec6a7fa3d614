import MuonJs.Cache.Bytes

/-!
# Replies and command names

`RespValue` is what the server reads and answers; a string and an error message
are written the same way whether they are static or not.  `Command` lists the
commands that `parse_command` knows.
-/

namespace MuonJs
namespace Cache

/-- `RespValue`, with `StaticSimple` and `StaticError` among `simple` and
`error`. -/
inductive RespValue
  | simple (text : String)
  | error (message : String)
  | integer (value : Int64)
  | blob (bytes : Bytes)
  | null
  | array (items : List RespValue)

namespace RespValue

/-- The reply `OK`. -/
def ok : RespValue := .simple "OK"

/-- The reply to a command on a key of another type. -/
def wrongType : RespValue :=
  .error "WRONGTYPE Operation against a key holding the wrong kind of value"

/-- The reply to a command with too few or too many arguments. -/
def wrongArguments (name : String) : RespValue :=
  .error ("ERR wrong number of arguments for '" ++ name ++ "'")

/-- The reply to an argument that is not an integer. -/
def notInteger : RespValue := .error "ERR value is not an integer or out of range"

/-- A boolean as `1` or `0`. -/
def flag (isSet : Bool) : RespValue := .integer (if isSet then 1 else 0)

/-- A value that may be absent. -/
def blobOrNull : Option Bytes → RespValue
  | some bytes => .blob bytes
  | none => .null

/-- An array of values. -/
def blobs (items : List Bytes) : RespValue := .array (items.map .blob)

end RespValue

/-- The commands of `parse_command`. -/
inductive Command
  | ping
  | echo
  | select
  | dbsize
  | get
  | set
  | setnx
  | mset
  | mget
  | getset
  | append
  | incr
  | incrby
  | decr
  | decrby
  | strlen
  | hset
  | hget
  | hdel
  | hgetall
  | hlen
  | hexists
  | lpush
  | rpush
  | lpop
  | rpop
  | lrange
  | llen
  | lindex
  | lset
  | linsert
  | lrem
  | lpushx
  | rpushx
  | ltrim
  | sadd
  | srem
  | smembers
  | sismember
  | scard
  | smove
  | sunion
  | sinter
  | zadd
  | zrange
  | zrem
  | zcard
  | xadd
  | xrange
  | xrevrange
  | xlen
  | xdel
  | hincrby
  | hsetnx
  | del
  | keyExists
  | expire
  | pexpire
  | persist
  | ttl
  | pttl
  | keyType
  | keys
  | scan
  | flushdb
  | flushall
  | info
  | eval
  | evalsha
  | script
  | config
  | functionCmd
  | client
  | slowlog
  | save
  | bgsave
  | replicaof
  | quit
  | multi
  | execQueued
  | discard
  | subscribe
  | publish
deriving DecidableEq

namespace Command

/-- The name of a command. -/
def name : Command → String
  | .ping => "PING"
  | .echo => "ECHO"
  | .select => "SELECT"
  | .dbsize => "DBSIZE"
  | .get => "GET"
  | .set => "SET"
  | .setnx => "SETNX"
  | .mset => "MSET"
  | .mget => "MGET"
  | .getset => "GETSET"
  | .append => "APPEND"
  | .incr => "INCR"
  | .incrby => "INCRBY"
  | .decr => "DECR"
  | .decrby => "DECRBY"
  | .strlen => "STRLEN"
  | .hset => "HSET"
  | .hget => "HGET"
  | .hdel => "HDEL"
  | .hgetall => "HGETALL"
  | .hlen => "HLEN"
  | .hexists => "HEXISTS"
  | .lpush => "LPUSH"
  | .rpush => "RPUSH"
  | .lpop => "LPOP"
  | .rpop => "RPOP"
  | .lrange => "LRANGE"
  | .llen => "LLEN"
  | .lindex => "LINDEX"
  | .lset => "LSET"
  | .linsert => "LINSERT"
  | .lrem => "LREM"
  | .lpushx => "LPUSHX"
  | .rpushx => "RPUSHX"
  | .ltrim => "LTRIM"
  | .sadd => "SADD"
  | .srem => "SREM"
  | .smembers => "SMEMBERS"
  | .sismember => "SISMEMBER"
  | .scard => "SCARD"
  | .smove => "SMOVE"
  | .sunion => "SUNION"
  | .sinter => "SINTER"
  | .zadd => "ZADD"
  | .zrange => "ZRANGE"
  | .zrem => "ZREM"
  | .zcard => "ZCARD"
  | .xadd => "XADD"
  | .xrange => "XRANGE"
  | .xrevrange => "XREVRANGE"
  | .xlen => "XLEN"
  | .xdel => "XDEL"
  | .hincrby => "HINCRBY"
  | .hsetnx => "HSETNX"
  | .del => "DEL"
  | .keyExists => "EXISTS"
  | .expire => "EXPIRE"
  | .pexpire => "PEXPIRE"
  | .persist => "PERSIST"
  | .ttl => "TTL"
  | .pttl => "PTTL"
  | .keyType => "TYPE"
  | .keys => "KEYS"
  | .scan => "SCAN"
  | .flushdb => "FLUSHDB"
  | .flushall => "FLUSHALL"
  | .info => "INFO"
  | .eval => "EVAL"
  | .evalsha => "EVALSHA"
  | .script => "SCRIPT"
  | .config => "CONFIG"
  | .functionCmd => "FUNCTION"
  | .client => "CLIENT"
  | .slowlog => "SLOWLOG"
  | .save => "SAVE"
  | .bgsave => "BGSAVE"
  | .replicaof => "REPLICAOF"
  | .quit => "QUIT"
  | .multi => "MULTI"
  | .execQueued => "EXEC"
  | .discard => "DISCARD"
  | .subscribe => "SUBSCRIBE"
  | .publish => "PUBLISH"

/-- `COMMANDS`. -/
def commands : List Command :=
  [.ping, .echo, .select, .dbsize, .get, .set, .setnx, .mset, .mget, .getset, .append,
    .incr, .incrby, .decr, .decrby, .strlen, .hset, .hget, .hdel, .hgetall, .hlen,
    .hexists, .lpush, .rpush, .lpop, .rpop, .lrange, .llen, .lindex, .lset, .linsert,
    .lrem, .lpushx, .rpushx, .ltrim, .sadd, .srem, .smembers, .sismember, .scard,
    .smove, .sunion, .sinter, .zadd, .zrange, .zrem, .zcard, .xadd, .xrange, .xrevrange,
    .xlen, .xdel, .hincrby, .hsetnx, .del, .keyExists, .expire, .pexpire, .persist,
    .ttl, .pttl, .keyType, .keys, .scan, .flushdb, .flushall, .info, .eval, .evalsha,
    .script, .config, .functionCmd, .client, .slowlog, .save, .bgsave, .replicaof,
    .quit, .multi, .execQueued, .discard, .subscribe, .publish]

end Command

/-- `parse_command`: the names do not depend on letter case, and no name has
more than 16 bytes. -/
def parseCommand (input : Bytes) : Option Command :=
  if 16 < input.length then none
  else Command.commands.find? fun cmd => asBytes cmd.name == toAsciiUppercase input

end Cache
end MuonJs
