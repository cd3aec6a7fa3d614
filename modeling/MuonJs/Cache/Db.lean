import MuonJs.Cache.Glob
import MuonJs.Cache.Shard

/-!
# A database of sixty-four shards

A database holds its entries in `NUM_SHARDS` maps, each behind its own lock,
and a key belongs to the shard its FNV-1a hash selects.  `Db` carries the proof
that every stored key lies in its own shard, so that a database is determined
by what its keys hold (`Db.ext_lookup`).

The single-key methods act through `Db.access`; the methods of a whole shard
(`purge_expired_all`, `snapshot_items`, `len`, `keys`, `keys_matching`,
`flush`) through `Db.onShard`.
-/

namespace MuonJs
namespace Cache

/-- `NUM_SHARDS`. -/
def numShards : Nat := 64

/-- The FNV-1a hash of a key. -/
def fnv1a (key : Bytes) : UInt64 :=
  key.foldl (fun h byte => (h ^^^ byte.toUInt64) * 0x100000001b3)
    0xcbf29ce484222325

/-- `Db::shard_index`. -/
def shardIndex (key : Bytes) : Fin numShards :=
  ⟨(fnv1a key).toNat % numShards, Nat.mod_lt _ (by decide)⟩

namespace Shard

/-- Leave an entry, or none, under a key. -/
def put (data : ByteMap Entry) (key : Bytes) (entry : Option Entry) :
    ByteMap Entry :=
  match entry with
  | some stored => data.insert key stored
  | none => data.erase key

theorem lookup_put
    (data : ByteMap Entry) (key probe : Bytes) (entry : Option Entry) :
    (put data key entry)[probe]? = if key = probe then entry else data[probe]? := by
  cases entry with
  | some stored => exact ByteMap.lookup_insert data key probe stored
  | none => exact ByteMap.lookup_erase data key probe

/-- `Shard::purge_expired_all`. -/
def purgeExpiredAll (now : UInt64) (data : ByteMap Entry) : ByteMap Entry :=
  data.filter fun _ entry => entry.live now

theorem lookup_purgeExpiredAll
    (now : UInt64) (data : ByteMap Entry) (probe : Bytes) :
    (purgeExpiredAll now data)[probe]? = data[probe]?.filter (Entry.live now) :=
  ByteMap.lookup_filter data (Entry.live now) probe

/-- The first half of `set_move`: take the member out of the source set. -/
def takeMember (member : Bytes) : EntryFn (Fallible Bool) := fun entry =>
  match entry with
  | none => (.ok false, none)
  | some stored =>
      match stored.value.asSet with
      | none => (.error (), entry)
      | some members =>
          if members.contains member then
            (.ok true,
              if (members.erase member).isEmpty then none
              else some (stored.withValue (.set (members.erase member))))
          else (.ok false, entry)

/-- The second half of `set_move`: add the member to the destination set. -/
def addMember (member : Bytes) : EntryFn (Fallible Bool) := fun entry =>
  match entry with
  | none => (.ok true, some ⟨.set ((∅ : ByteSet).insert member), none⟩)
  | some stored =>
      match stored.value.asSet with
      | none => (.error (), entry)
      | some members =>
          (.ok true, some (stored.withValue (.set (members.insert member))))

/-- The items of a shard in iteration order. -/
def items (data : ByteMap Entry) : List (Bytes × Value × Option UInt64) :=
  data.toList.map fun item => (item.1, item.2.value, item.2.expiresAt)

/-- The keys of a shard that match a pattern, sorted. -/
def matchingKeys (pattern : Bytes) (data : ByteMap Entry) : List Bytes :=
  sortBytes (data.keys.filter fun key => Glob.globMatch key pattern)

end Shard

/-- `Db`: the entries of each shard, every key in the shard it hashes to. -/
structure Db where
  shards : Fin numShards → ByteMap Entry
  placed : ∀ index key, key ∈ shards index → shardIndex key = index

namespace Db

/-- `Db::new`: a database without entries. -/
def empty : Db where
  shards := fun _ => ∅
  placed := fun _ key stored => by simp at stored

/-- The entry stored under a key, expired or not. -/
def lookup (db : Db) (key : Bytes) : Option Entry :=
  (db.shards (shardIndex key))[key]?

@[simp] theorem lookup_empty (key : Bytes) : empty.lookup key = none := by
  simp [lookup, empty]

/-- A key is found in a shard exactly when it is stored under the key and the
shard is its own. -/
theorem shards_getElem? (db : Db) (index : Fin numShards) (key : Bytes) :
    (db.shards index)[key]? =
      if shardIndex key = index then db.lookup key else none := by
  split
  case isTrue own =>
    subst own
    rfl
  case isFalse foreign =>
    apply Std.ExtTreeMap.getElem?_eq_none
    exact fun stored => foreign (db.placed index key stored)

/-- Databases that hold the same entries under every key are equal. -/
theorem ext_lookup
    {left right : Db}
    (agree : ∀ key, left.lookup key = right.lookup key) :
    left = right := by
  have sameShards : left.shards = right.shards := by
    funext index
    apply Std.ExtTreeMap.ext_getElem?
    intro key
    rw [shards_getElem?, shards_getElem?, agree]
  cases left
  cases right
  cases sameShards
  rfl

/-- Leave an entry, or none, under a key. -/
def put (db : Db) (key : Bytes) (entry : Option Entry) : Db where
  shards := fun index =>
    if index = shardIndex key then Shard.put (db.shards index) key entry
    else db.shards index
  placed := by
    intro index probe stored
    split at stored
    case isFalse other => exact db.placed index probe stored
    case isTrue own =>
      by_cases same : key = probe
      · rw [← same, own]
      · rw [Std.ExtTreeMap.mem_iff_isSome_getElem?, Shard.lookup_put,
          if_neg same, ← Std.ExtTreeMap.mem_iff_isSome_getElem?] at stored
        exact db.placed index probe stored

theorem lookup_put
    (db : Db) (key probe : Bytes) (entry : Option Entry) :
    (db.put key entry).lookup probe =
      if key = probe then entry else db.lookup probe := by
  unfold lookup put
  dsimp only
  by_cases own : shardIndex probe = shardIndex key
  · rw [if_pos own, Shard.lookup_put]
  · have different : key ≠ probe := by
      rintro rfl
      exact own rfl
    rw [if_neg own, if_neg different]

/-- Run a single-key method at a key. -/
def access (db : Db) (key : Bytes) (method : EntryFn α) : α × Db :=
  ((method (db.lookup key)).1, db.put key (method (db.lookup key)).2)

@[simp] theorem access_result
    (db : Db) (key : Bytes) (method : EntryFn α) :
    (db.access key method).1 = (method (db.lookup key)).1 := rfl

theorem lookup_access
    (db : Db) (key probe : Bytes) (method : EntryFn α) :
    (db.access key method).2.lookup probe =
      if key = probe then (method (db.lookup key)).2 else db.lookup probe :=
  lookup_put db key probe _

/-- Rewrite one shard, keeping only keys that are already there. -/
def onShard (db : Db) (index : Fin numShards)
    (change : ByteMap Entry → ByteMap Entry)
    (shrinks : ∀ data key, key ∈ change data → key ∈ data) : Db where
  shards := fun other =>
    if other = index then change (db.shards other) else db.shards other
  placed := by
    intro other key stored
    split at stored
    · exact db.placed other key (shrinks _ key stored)
    · exact db.placed other key stored

theorem lookup_onShard
    (db : Db) (index : Fin numShards)
    (change : ByteMap Entry → ByteMap Entry)
    (shrinks : ∀ data key, key ∈ change data → key ∈ data)
    (key : Bytes) :
    (db.onShard index change shrinks).lookup key =
      if shardIndex key = index then (change (db.shards index))[key]?
      else db.lookup key := by
  unfold lookup onShard
  dsimp only
  split
  case isTrue own => rw [own]
  case isFalse other => rfl

theorem mem_purgeExpiredAll
    (now : UInt64) (data : ByteMap Entry) (key : Bytes)
    (kept : key ∈ Shard.purgeExpiredAll now data) :
    key ∈ data := by
  rw [Std.ExtTreeMap.mem_iff_isSome_getElem?,
    Shard.lookup_purgeExpiredAll] at kept
  rw [Std.ExtTreeMap.mem_iff_isSome_getElem?]
  cases stored : data[key]? with
  | none => simp [stored] at kept
  | some entry => rfl

/-- `Shard::purge_expired_all` on one shard. -/
def purgeShard (db : Db) (now : UInt64) (index : Fin numShards) : Db :=
  db.onShard index (Shard.purgeExpiredAll now) (mem_purgeExpiredAll now)

theorem lookup_purgeShard
    (db : Db) (now : UInt64) (index : Fin numShards) (key : Bytes) :
    (db.purgeShard now index).lookup key =
      if shardIndex key = index then (db.lookup key).filter (Entry.live now)
      else db.lookup key := by
  unfold purgeShard
  rw [lookup_onShard]
  by_cases own : shardIndex key = index
  · rw [if_pos own, if_pos own, Shard.lookup_purgeExpiredAll,
      shards_getElem?, if_pos own]
  · rw [if_neg own, if_neg own]

/-- `Shard::flush` on one shard. -/
def flushShard (db : Db) (index : Fin numShards) : Db :=
  db.onShard index (fun _ => ∅) (fun _ _ stored => by simp at stored)

theorem lookup_flushShard
    (db : Db) (index : Fin numShards) (key : Bytes) :
    (db.flushShard index).lookup key =
      if shardIndex key = index then none else db.lookup key := by
  unfold flushShard
  rw [lookup_onShard]
  simp

/-- Drop every expired entry of the database at once. -/
def purge (db : Db) (now : UInt64) : Db where
  shards := fun index => Shard.purgeExpiredAll now (db.shards index)
  placed := fun index key stored =>
    db.placed index key (mem_purgeExpiredAll now _ key stored)

@[simp] theorem lookup_purge (db : Db) (now : UInt64) (key : Bytes) :
    (db.purge now).lookup key = (db.lookup key).filter (Entry.live now) :=
  Shard.lookup_purgeExpiredAll now _ key

/-- The live entry under a key. -/
def visible (db : Db) (now : UInt64) (key : Bytes) : Option Entry :=
  (db.lookup key).filter (Entry.live now)

/-- Drop the entry under a key when it is expired
(`if self.is_expired(key) { self.remove(key); }`). -/
def dropExpired (db : Db) (now : UInt64) (key : Bytes) : Db :=
  (db.access key (Shard.live now fun entry => ((), entry))).2

theorem lookup_dropExpired
    (db : Db) (now : UInt64) (key probe : Bytes) :
    (db.dropExpired now key).lookup probe =
      if key = probe then (db.lookup key).filter (Entry.live now)
      else db.lookup probe :=
  lookup_access db key probe _

/-- `Db::set_move`, in one shard or across two: both keys are checked for
expiry, then the member leaves the source set and joins the destination. -/
def setMove (db : Db) (now : UInt64) (source dest member : Bytes) :
    Fallible Bool × Db :=
  let db := (db.dropExpired now source).dropExpired now dest
  match db.access source (Shard.takeMember member) with
  | (.ok true, db) => db.access dest (Shard.addMember member)
  | (result, db) => (result, db)

end Db
end Cache
end MuonJs
