import MuonJs.Cache.Db
import MuonJs.Lib.Program

/-!
# Calls: what happens under one lock

`Db` locks one shard for each single-key method, both shards of `set_move`
together, and the shards of an all-shard method one after the other.  A `Call`
is one such critical section.  The methods that take several locks in turn
(`set_union`, `set_inter`, `len`, `keys`, ...) are programs over calls, so that
other clients may act between two of their calls.
-/

namespace MuonJs
namespace Cache

/-- The single-key methods of `Db` with their arguments. -/
inductive EntryOp
  | set (value : Value) (expireAtMs : Option UInt64)
  | remove
  | keyExists
  | ttlMs
  | setExpireMs (ttlMs : UInt64)
  | persist
  | valueType
  | getString
  | setString (value : Bytes) (expireAtMs : Option UInt64)
  | setStringRef (value : Bytes) (expireAtMs : Option UInt64)
  | setNx (value : Bytes)
  | append (value : Bytes)
  | incrBy (delta : Int64)
  | listPush (values : List Bytes) (left : Bool)
  | listPop (left : Bool)
  | listRange (start stop : Int64)
  | listLen
  | listIndex (index : Int64)
  | listSet (index : Int64) (value : Bytes)
  | listInsert (before : Bool) (pivot value : Bytes)
  | listRem (count : Int64) (value : Bytes)
  | listPushX (values : List Bytes) (left : Bool)
  | listTrim (start stop : Int64)
  | hashSet (field value : Bytes)
  | hashSetRef (field value : Bytes)
  | hashSetBytes (field value : Bytes)
  | hashGet (field : Bytes)
  | hashDel (fields : List Bytes)
  | hashLen
  | hashExists (field : Bytes)
  | hashGetall
  | hashIncrBy (field : Bytes) (delta : Int64)
  | hashSetNx (field value : Bytes)
  | setAdd (members : List Bytes)
  | setAddSingleBytes (member : Bytes)
  | setRemove (members : List Bytes)
  | setMembers
  | setIsMember (member : Bytes)
  | setCard
  | zadd (score : F64) (member : Bytes)
  | zrem (members : List Bytes)
  | zcard
  | zrange (start stop : Int64)
  | streamAdd (id : String) (fields : List (Bytes × Bytes))
  | streamRange (start stop : String)
  | streamLen
  | streamRevRange (start stop : String)
  | streamDel (ids : List String)

namespace EntryOp

/-- What a single-key method returns. -/
@[reducible] def Result : EntryOp → Type
  | .set .. | .setString .. | .setStringRef .. => Unit
  | .remove | .keyExists | .setExpireMs _ => Bool
  | .ttlMs => Option Int64
  | .persist => Int64
  | .valueType => Option String
  | .setNx _ | .hashSet .. | .hashSetRef .. | .hashSetBytes .. | .hashExists _
  | .hashSetNx .. | .setIsMember _ | .zadd .. => Fallible Bool
  | .append _ | .incrBy _ | .listPush .. | .listLen | .listInsert ..
  | .listRem .. | .listPushX .. | .hashDel _ | .hashLen | .hashIncrBy ..
  | .setAdd _ | .setAddSingleBytes _ | .setRemove _ | .setCard | .zrem _
  | .zcard | .streamLen | .streamDel _ => Fallible Int64
  | .getString | .listPop _ | .listIndex _ | .hashGet _ =>
      Fallible (Option Bytes)
  | .listRange .. | .setMembers | .zrange .. => Fallible (List Bytes)
  | .listSet .. | .listTrim .. => Fallible Unit
  | .hashGetall => Fallible (List (Bytes × Bytes))
  | .streamAdd .. => Fallible String
  | .streamRange .. | .streamRevRange .. => Fallible (List StreamEntry)

/-- The shard method that a `Db` method delegates to. -/
def apply (now : UInt64) : (op : EntryOp) → EntryFn op.Result
  | .set value expireAtMs => Shard.set value expireAtMs
  | .remove => Shard.remove
  | .keyExists => Shard.keyExists now
  | .ttlMs => Shard.ttlMs now
  | .setExpireMs ttl => Shard.setExpireMs ttl now
  | .persist => Shard.persist now
  | .valueType => Shard.valueType now
  | .getString => Shard.getString now
  | .setString value expireAtMs => Shard.setString value expireAtMs
  | .setStringRef value expireAtMs => Shard.setStringRef value expireAtMs
  | .setNx value => Shard.setNx value now
  | .append value => Shard.append value now
  | .incrBy delta => Shard.incrBy delta now
  | .listPush values left => Shard.listPush values left now
  | .listPop left => Shard.listPop left now
  | .listRange start stop => Shard.listRange start stop now
  | .listLen => Shard.listLen now
  | .listIndex index => Shard.listIndex index now
  | .listSet index value => Shard.listSet index value now
  | .listInsert before pivot value => Shard.listInsert before pivot value now
  | .listRem count value => Shard.listRem count value now
  | .listPushX values left => Shard.listPushX values left now
  | .listTrim start stop => Shard.listTrim start stop now
  | .hashSet field value => Shard.hashSet field value now
  | .hashSetRef field value => Shard.hashSetRef field value now
  | .hashSetBytes field value => Shard.hashSetBytes field value now
  | .hashGet field => Shard.hashGet field now
  | .hashDel fields => Shard.hashDel fields now
  | .hashLen => Shard.hashLen now
  | .hashExists field => Shard.hashExists field now
  | .hashGetall => Shard.hashGetall now
  | .hashIncrBy field delta => Shard.hashIncrBy field delta now
  | .hashSetNx field value => Shard.hashSetNx field value now
  | .setAdd members => Shard.setAdd members now
  | .setAddSingleBytes member => Shard.setAddSingleBytes member now
  | .setRemove members => Shard.setRemove members now
  | .setMembers => Shard.setMembers now
  | .setIsMember member => Shard.setIsMember member now
  | .setCard => Shard.setCard now
  | .zadd score member => Shard.zadd score member now
  | .zrem members => Shard.zrem members now
  | .zcard => Shard.zcard now
  | .zrange start stop => Shard.zrange start stop now
  | .streamAdd id fields => Shard.streamAdd id fields now
  | .streamRange start stop => Shard.streamRange start stop now
  | .streamLen => Shard.streamLen now
  | .streamRevRange start stop => Shard.streamRevRange start stop now
  | .streamDel ids => Shard.streamDel ids now

end EntryOp

/-- The methods of one shard that an all-shard method of `Db` calls. -/
inductive ShardOp
  | purgeExpiredAll
  | snapshotItems
  | len
  | keys
  | keysMatching (pattern : Bytes)
  | flush

namespace ShardOp

/-- What a method of a whole shard returns. -/
@[reducible] def Result : ShardOp → Type
  | .purgeExpiredAll => Unit
  | .snapshotItems => List (Bytes × Value × Option UInt64)
  | .len | .flush => Nat
  | .keys | .keysMatching _ => List Bytes

/-- The result of a method of a whole shard, from the shard's entries. -/
def result (now : UInt64) (data : ByteMap Entry) : (op : ShardOp) → op.Result
  | .purgeExpiredAll => ()
  | .snapshotItems => Shard.items (Shard.purgeExpiredAll now data)
  | .len => (Shard.purgeExpiredAll now data).size
  | .keys => (Shard.purgeExpiredAll now data).keys
  | .keysMatching pattern =>
      Shard.matchingKeys pattern (Shard.purgeExpiredAll now data)
  | .flush => data.size

/-- The database after a method of a whole shard: every method but `flush`
leaves the shard without its expired entries. -/
def effect (now : UInt64) (op : ShardOp) (index : Fin numShards) (db : Db) : Db :=
  match op with
  | .flush => db.flushShard index
  | _ => db.purgeShard now index

end ShardOp

/-- One critical section of a database. -/
inductive Call
  | entry (key : Bytes) (op : EntryOp)
  | setMove (source dest member : Bytes)
  | shard (index : Fin numShards) (op : ShardOp)

namespace Call

/-- What a call returns. -/
@[reducible] def Result : Call → Type
  | .entry _ op => op.Result
  | .setMove .. => Fallible Bool
  | .shard _ op => op.Result

/-- Run a call at a clock reading. -/
def exec (now : UInt64) : (call : Call) → Db → call.Result × Db
  | .entry key op, db => db.access key (op.apply now)
  | .setMove source dest member, db => db.setMove now source dest member
  | .shard index op, db =>
      (op.result now (db.shards index), op.effect now index db)

/-- The calls of a database as a signature. -/
@[reducible] def signature : Signature := ⟨Call, Result⟩

/-- The program of a single call. -/
def perform (call : Call) : Program signature call.Result :=
  @Program.perform signature call

end Call

namespace Db

/-- A method of `Db`, issuing one call for each lock it takes. -/
abbrev Method (α : Type) := Program Call.signature α

/-- A single-key method as a call. -/
def entry (key : Bytes) (op : EntryOp) : Method op.Result :=
  Call.perform (.entry key op)

/-- Call a method of the shards in turn and collect the results. -/
def shardsInTurn (op : ShardOp) (indices : List (Fin numShards)) :
    Method (List op.Result) :=
  indices.mapM fun index => Call.perform (.shard index op)

theorem shardsInTurn_cons
    (op : ShardOp) (index : Fin numShards) (indices : List (Fin numShards)) :
    shardsInTurn op (index :: indices) =
      @Program.call Call.signature _ (.shard index op) fun result =>
        shardsInTurn op indices >>= fun results => .pure (result :: results) :=
  List.mapM_cons

/-- Call a method of every shard in turn and collect the results. -/
def eachShard (op : ShardOp) : Method (List op.Result) :=
  shardsInTurn op (List.finRange numShards)

/-- `Db::purge_expired_all`. -/
def purgeExpiredAll : Method Unit := do
  let _ ← eachShard .purgeExpiredAll
  return ()

/-- `Db::snapshot_items`. -/
def snapshotItems : Method (List (Bytes × Value × Option UInt64)) := do
  return (← eachShard .snapshotItems).flatten

/-- `Db::len`. -/
def len : Method Nat := do
  return (← eachShard .len).sum

/-- `Db::keys`. -/
def keys : Method (List Bytes) := do
  return (← eachShard .keys).flatten

/-- `Db::keys_matching`. -/
def keysMatching (pattern : Bytes) : Method (List Bytes) := do
  return sortBytes (← eachShard (.keysMatching pattern)).flatten

/-- `Db::flush`. -/
def flush : Method Nat := do
  return (← eachShard .flush).sum

/-- The loop of `Db::set_union`. -/
def setUnionLoop (result : ByteSet) : List Bytes → Method (Fallible ByteSet)
  | [] => return .ok result
  | key :: keys => do
      match ← entry key .setMembers with
      | .ok members => setUnionLoop (result.insertMany members) keys
      | .error () => return .error ()

/-- `Db::set_union`. -/
def setUnion (keys : List Bytes) : Method (Fallible (List Bytes)) := do
  return (← setUnionLoop ∅ keys).map Std.ExtTreeSet.toList

/-- Whether a member is in every further set of `Db::set_inter`. -/
def inAll (member : Bytes) : List Bytes → Method (Fallible Bool)
  | [] => return .ok true
  | key :: keys => do
      match ← entry key (.setIsMember member) with
      | .ok true => inAll member keys
      | .ok false => return .ok false
      | .error () => return .error ()

/-- The loop of `Db::set_inter` over the members of the first set. -/
def setInterLoop (others : List Bytes) :
    List Bytes → Method (Fallible (List Bytes))
  | [] => return .ok []
  | member :: members => do
      match ← inAll member others with
      | .error () => return .error ()
      | .ok isCommon =>
          match ← setInterLoop others members with
          | .error () => return .error ()
          | .ok rest => return .ok (if isCommon then member :: rest else rest)

/-- `Db::set_inter`. -/
def setInter : List Bytes → Method (Fallible (List Bytes))
  | [] => return .ok []
  | first :: others => do
      match ← entry first .setMembers with
      | .error () => return .error ()
      | .ok members => setInterLoop others members

end Db

/-- The public methods of `Db` with their arguments. -/
inductive DbOp
  | entry (key : Bytes) (op : EntryOp)
  | setMove (source dest member : Bytes)
  | setUnion (keys : List Bytes)
  | setInter (keys : List Bytes)
  | purgeExpiredAll
  | snapshotItems
  | len
  | keys
  | keysMatching (pattern : Bytes)
  | flush

namespace DbOp

/-- What a method of `Db` returns. -/
@[reducible] def Result : DbOp → Type
  | .entry _ op => op.Result
  | .setMove .. => Fallible Bool
  | .setUnion _ | .setInter _ => Fallible (List Bytes)
  | .purgeExpiredAll => Unit
  | .snapshotItems => List (Bytes × Value × Option UInt64)
  | .len | .flush => Nat
  | .keys | .keysMatching _ => List Bytes

/-- The calls a method of `Db` makes. -/
def program : (op : DbOp) → Db.Method op.Result
  | .entry key op => Db.entry key op
  | .setMove source dest member => Call.perform (.setMove source dest member)
  | .setUnion sets => Db.setUnion sets
  | .setInter sets => Db.setInter sets
  | .purgeExpiredAll => Db.purgeExpiredAll
  | .snapshotItems => Db.snapshotItems
  | .len => Db.len
  | .keys => Db.keys
  | .keysMatching pattern => Db.keysMatching pattern
  | .flush => Db.flush

/-- Call the methods one after the other; the results with their methods. -/
def runAll : List DbOp → Db.Method (List ((op : DbOp) × op.Result))
  | [] => return []
  | op :: ops => do
      let result ← op.program
      let results ← runAll ops
      return ⟨op, result⟩ :: results

end DbOp
end Cache
end MuonJs
