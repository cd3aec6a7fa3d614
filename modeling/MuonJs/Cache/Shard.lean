import MuonJs.Cache.Value

/-!
# The single-key methods of a shard

Every single-key method of `impl Shard` looks its key up, changes the entry it
finds (or creates one, or removes it) and returns a result.  It is modelled as
a function of the entry stored under its key; `Shard.access` runs such a
function at a key.  Most methods start with

    if self.is_expired(key) { self.remove(key); }

which is `live` below; the methods without that prelude do not use it.  The
clock is read once per method.
-/

namespace MuonJs
namespace Cache

/-- `Result<α, ()>`. -/
abbrev Fallible (α : Type) := Except Unit α

/-- A single-key method, as a function of the entry under its key: the result
and the entry left there. -/
abbrev EntryFn (α : Type) := Option Entry → α × Option Entry

namespace Value

/-- The items of a list value. -/
def asList : Value → Option (List Bytes)
  | .list items => some items
  | _ => none

/-- The members of a set value. -/
def asSet : Value → Option ByteSet
  | .set items => some items
  | _ => none

/-- The fields of a hash value. -/
def asHash : Value → Option HashStore
  | .hash fields => some fields
  | _ => none

/-- The scores of a sorted-set value. -/
def asZSet : Value → Option (ByteMap F64)
  | .zset items => some items
  | _ => none

/-- The entries of a stream value. -/
def asStream : Value → Option (List StreamEntry)
  | .stream items => some items
  | _ => none

/-- The bytes of a string value; an integer is written out in decimal. -/
def asString : Value → Option Bytes
  | .string bytes => some bytes
  | .int n => some (writeI64Bytes n)
  | _ => none

/-- Name of the value's type. -/
def typeName : Value → String
  | .string _ => "string"
  | .int _ => "string"
  | .list _ => "list"
  | .set _ => "set"
  | .hash _ => "hash"
  | .zset _ => "zset"
  | .stream _ => "stream"

end Value

namespace Shard

/-- Length of a collection as `i64`. -/
def lenI64 (items : List α) : Int64 := Int64.ofNat items.length

/-- The prelude that drops an expired entry. -/
def live (now : UInt64) (method : EntryFn α) : EntryFn α :=
  fun entry => method (entry.filter (Entry.live now))

/-- A method that reads a value of one kind: the wrong kind is an error, a
missing key reads as `missing`. -/
def readAs
    (kind : Value → Option β) (found : β → α) (missing : α)
    (now : UInt64) : EntryFn (Fallible α) :=
  live now fun entry =>
    match entry with
    | some stored =>
        match kind stored.value with
        | some content => (.ok (found content), entry)
        | none => (.error (), entry)
    | none => (.ok missing, none)

/-- A method that changes a value of one kind in place.  `change` gives the
result and the new content, `none` where the key is removed; `missing` gives
the result and the value created when the key is absent. -/
def updateAs
    (kind : Value → Option β) (wrap : β → Value)
    (change : β → Fallible α × Option β)
    (missing : Fallible α × Option Value)
    (now : UInt64) : EntryFn (Fallible α) :=
  live now fun entry =>
    match entry with
    | some stored =>
        match kind stored.value with
        | some content =>
            ((change content).1,
              (change content).2.map fun new => stored.withValue (wrap new))
        | none => (.error (), entry)
    | none => (missing.1, missing.2.map fun value => ⟨value, none⟩)

section

variable {kind : Value → Option β} {now : UInt64} {stored : Entry} {content : β}

/-- A reading method at a live entry of its kind. -/
theorem readAs_of_live
    (alive : stored.live now = true) (isKind : kind stored.value = some content)
    (found : β → α) (missing : α) :
    readAs kind found missing now (some stored) =
      (.ok (found content), some stored) := by
  rw [readAs, live, Option.filter_some_pos alive]
  dsimp only
  rw [isKind]

/-- A reading method at a live entry of another kind. -/
theorem readAs_of_wrongType
    (alive : stored.live now = true) (otherKind : kind stored.value = none)
    (found : β → α) (missing : α) :
    readAs kind found missing now (some stored) = (.error (), some stored) := by
  rw [readAs, live, Option.filter_some_pos alive]
  dsimp only
  rw [otherKind]

/-- A reading method at a key without a live entry. -/
theorem readAs_of_absent
    {entry : Option Entry} (absent : entry.filter (Entry.live now) = none)
    (found : β → α) (missing : α) :
    readAs kind found missing now entry = (.ok missing, none) := by
  rw [readAs, live, absent]

variable {wrap : β → Value} {change : β → Fallible α × Option β}
  {missing : Fallible α × Option Value}

/-- A changing method at a live entry of its kind. -/
theorem updateAs_of_live
    (alive : stored.live now = true) (isKind : kind stored.value = some content) :
    updateAs kind wrap change missing now (some stored) =
      ((change content).1,
        (change content).2.map fun new => stored.withValue (wrap new)) := by
  rw [updateAs, live, Option.filter_some_pos alive]
  dsimp only
  rw [isKind]

/-- A changing method at a key without a live entry. -/
theorem updateAs_of_absent
    {entry : Option Entry} (absent : entry.filter (Entry.live now) = none) :
    updateAs kind wrap change missing now entry =
      (missing.1, missing.2.map fun value => ⟨value, none⟩) := by
  rw [updateAs, live, absent]

end

/-! ## Keys -/

/-- `Shard::set`, also `set_with_expire_at`. -/
def set (value : Value) (expireAtMs : Option UInt64) : EntryFn Unit :=
  fun _ => ((), some ⟨value, expireAtMs⟩)

/-- `Shard::remove`. -/
def remove : EntryFn Bool := fun entry => (entry.isSome, none)

/-- `Shard::exists`. -/
def keyExists (now : UInt64) : EntryFn Bool :=
  live now fun entry => (entry.isSome, entry)

/-- `Shard::ttl_ms`. -/
def ttlMs (now : UInt64) : EntryFn (Option Int64) := fun entry =>
  match entry with
  | none => (none, none)
  | some stored =>
      match stored.expiresAt with
      | some ts =>
          if ts ≤ now then (none, none)
          else (some (ts - now).toInt64, entry)
      | none => (some (-1), entry)

/-- `Shard::set_expire_ms`. -/
def setExpireMs (ttlMs : UInt64) (now : UInt64) : EntryFn Bool := fun entry =>
  match entry with
  | some stored =>
      (true, some { stored with expiresAt := some (saturatingAddU64 now ttlMs) })
  | none => (false, none)

/-- `Shard::persist`. -/
def persist (now : UInt64) : EntryFn Int64 := live now fun entry =>
  match entry with
  | some stored =>
      (if stored.expiresAt.isSome then 1 else 0,
        some { stored with expiresAt := none })
  | none => (0, none)

/-- `Shard::value_type`. -/
def valueType (now : UInt64) : EntryFn (Option String) := live now fun entry =>
  (entry.map fun stored => stored.value.typeName, entry)

/-! ## Strings -/

/-- `Shard::get_string`. -/
def getString : UInt64 → EntryFn (Fallible (Option Bytes)) :=
  readAs Value.asString some none

/-- `Shard::set_string`. -/
def setString (value : Bytes) (expireAtMs : Option UInt64) : EntryFn Unit :=
  set (.string value) expireAtMs

/-- `Shard::set_string_ref`, also `set_string_from_slices`. -/
def setStringRef (value : Bytes) (expireAtMs : Option UInt64) : EntryFn Unit :=
  fun entry =>
    match entry with
    | some stored =>
        ((), some { stored with value := .string value, expiresAt := expireAtMs })
    | none => ((), some ⟨.string value, expireAtMs⟩)

/-- `Shard::set_nx`. -/
def setNx (value : Bytes) (now : UInt64) : EntryFn (Fallible Bool) :=
  live now fun entry =>
    match entry with
    | some _ => (.ok false, entry)
    | none => (.ok true, some ⟨.string value, none⟩)

/-- `Shard::append`: an integer is written out before the value is added. -/
def append (value : Bytes) : UInt64 → EntryFn (Fallible Int64) :=
  updateAs Value.asString .string
    (fun bytes => (.ok (lenI64 (bytes ++ value)), some (bytes ++ value)))
    (.ok (lenI64 value), some (.string value))

/-- The number a string or integer value holds. -/
def counterOf : Value → Option (Fallible Int64)
  | .int n => some (.ok n)
  | .string bytes =>
      some (match Store.parseI64Bytes bytes with
        | some n => .ok n
        | none => .error ())
  | _ => none

/-- `Shard::incr_by`. -/
def incrBy (delta : Int64) (now : UInt64) : EntryFn (Fallible Int64) :=
  live now fun entry =>
    match entry with
    | some stored =>
        match counterOf stored.value with
        | some (.ok n) =>
            (.ok (saturatingAddI64 n delta),
              some (stored.withValue (.int (saturatingAddI64 n delta))))
        | some (.error ()) => (.error (), entry)
        | none => (.error (), entry)
    | none => (.ok delta, some ⟨.int delta, none⟩)

/-! ## Lists -/

/-- Push the values one by one at one end. -/
def pushAll (left : Bool) (values items : List Bytes) : List Bytes :=
  if left then values.foldl (fun list value => value :: list) items
  else items ++ values

/-- `Shard::list_push`. -/
def listPush (values : List Bytes) (left : Bool) :
    UInt64 → EntryFn (Fallible Int64) :=
  updateAs Value.asList .list
    (fun items =>
      (.ok (lenI64 (pushAll left values items)),
        some (pushAll left values items)))
    (.ok (lenI64 (pushAll left values [])),
      some (.list (pushAll left values [])))

/-- The content kept under the key, none when it became empty. -/
def unlessEmpty (items : List α) : Option (List α) :=
  if items.isEmpty then none else some items

/-- `Shard::list_pop`. -/
def listPop (left : Bool) : UInt64 → EntryFn (Fallible (Option Bytes)) :=
  updateAs Value.asList .list
    (fun items =>
      if left then (.ok items.head?, unlessEmpty items.tail)
      else (.ok items.getLast?, unlessEmpty items.dropLast))
    (.ok none, none)

/-- The items a `start..=stop` range selects; negative positions count from
the end, positions past the ends are clamped. -/
def sliceRange (items : List α) (start stop : Int64) : List α :=
  let len := lenI64 items
  if len = 0 then []
  else
    let s := if start < 0 then len + start else start
    let e := if stop < 0 then len + stop else stop
    let s := if s < 0 then 0 else s
    if e < 0 then []
    else if len ≤ s then []
    else
      let e := if len ≤ e then len - 1 else e
      if e < s then []
      else (items.drop s.toNatClampNeg).take (e - s + 1).toNatClampNeg

/-- `Shard::list_range`. -/
def listRange (start stop : Int64) : UInt64 → EntryFn (Fallible (List Bytes)) :=
  readAs Value.asList (fun items => sliceRange items start stop) []

/-- `Shard::list_len`. -/
def listLen : UInt64 → EntryFn (Fallible Int64) :=
  readAs Value.asList lenI64 0

/-- Position that an index names, if it lies in the list. -/
def listPosition (items : List α) (index : Int64) : Option Nat :=
  let len := lenI64 items
  let idx := if index < 0 then len + index else index
  if idx < 0 ∨ len ≤ idx then none else some idx.toNatClampNeg

/-- `Shard::list_index`. -/
def listIndex (index : Int64) : UInt64 → EntryFn (Fallible (Option Bytes)) :=
  readAs Value.asList
    (fun items => (listPosition items index).bind fun idx => items[idx]?) none

/-- `Shard::list_set`. -/
def listSet (index : Int64) (value : Bytes) : UInt64 → EntryFn (Fallible Unit) :=
  updateAs Value.asList .list
    (fun items =>
      match listPosition items index with
      | none => (.error (), some items)
      | some idx => (.ok (), some (items.set idx value)))
    (.error (), none)

/-- `Shard::list_insert`. -/
def listInsert (before : Bool) (pivot value : Bytes) :
    UInt64 → EntryFn (Fallible Int64) :=
  updateAs Value.asList .list
    (fun items =>
      match items.findIdx? (· == pivot) with
      | some idx =>
          let items := items.insertIdx (if before then idx else idx + 1) value
          (.ok (lenI64 items), some items)
      | none => (.ok (-1), some items))
    (.ok 0, none)

/-- Remove the first `count` occurrences of a value, from the front; the
number removed and the rest. -/
def removeFront (value : Bytes) : Nat → List Bytes → Nat × List Bytes
  | _, [] => (0, [])
  | 0, items => (0, items)
  | count + 1, item :: rest =>
      if item = value then
        let (removed, kept) := removeFront value count rest
        (removed + 1, kept)
      else
        let (removed, kept) := removeFront value (count + 1) rest
        (removed, item :: kept)

/-- The removal of `LREM`: all occurrences, or `count` from one end. -/
def removeMatches (count : Int64) (value : Bytes) (items : List Bytes) :
    Nat × List Bytes :=
  if count = 0 then removeFront value items.length items
  else if 0 < count then removeFront value count.toNatClampNeg items
  else
    let (removed, kept) :=
      removeFront value (-count).toNatClampNeg items.reverse
    (removed, kept.reverse)

/-- `Shard::list_rem`. -/
def listRem (count : Int64) (value : Bytes) :
    UInt64 → EntryFn (Fallible Int64) :=
  updateAs Value.asList .list
    (fun items =>
      let (removed, kept) := removeMatches count value items
      (.ok (Int64.ofNat removed), unlessEmpty kept))
    (.ok 0, none)

/-- `Shard::list_push_x`. -/
def listPushX (values : List Bytes) (left : Bool) :
    UInt64 → EntryFn (Fallible Int64) :=
  updateAs Value.asList .list
    (fun items =>
      (.ok (lenI64 (pushAll left values items)),
        some (pushAll left values items)))
    (.ok 0, none)

/-- The items kept by `LTRIM`.  The bounds are cast to `usize`, so an end
before the list wraps to the largest index. -/
def trimRange (items : List Bytes) (start stop : Int64) : List Bytes :=
  let len := lenI64 items
  let s := (if start < 0 then max (len + start).toInt 0
    else min start.toInt len.toInt)
  let e := (if stop < 0 then max (len + stop).toInt (-1)
    else min stop.toInt (len - 1).toInt)
  let s := (Int64.ofInt s).toUInt64
  let e := (Int64.ofInt e).toUInt64
  if e < s ∨ items.length ≤ s.toNat then []
  else (items.take (e + 1).toNat).drop s.toNat

/-- `Shard::list_trim`. -/
def listTrim (start stop : Int64) : UInt64 → EntryFn (Fallible Unit) :=
  updateAs Value.asList .list
    (fun items => (.ok (), unlessEmpty (trimRange items start stop)))
    (.ok (), none)

/-! ## Hashes -/

/-- The body shared by `hash_set`, `hash_set_ref` and `hash_set_bytes`: the
expiry check is made inline and an expired entry is overwritten in place. -/
def hashSetWith (insert : HashStore → Fallible Bool × HashStore)
    (fresh : HashStore) (now : UInt64) : EntryFn (Fallible Bool) := fun entry =>
  match entry with
  | some stored =>
      if stored.expired now then (.ok true, some ⟨.hash fresh, none⟩)
      else
        match stored.value.asHash with
        | some fields =>
            ((insert fields).1, some (stored.withValue (.hash (insert fields).2)))
        | none => (.error (), entry)
  | none => (.ok true, some ⟨.hash fresh, none⟩)

/-- `Shard::hash_set`. -/
def hashSet (field value : Bytes) : UInt64 → EntryFn (Fallible Bool) :=
  hashSetWith
    (fun fields =>
      (.ok (fields.insert field value).1.isNone, (fields.insert field value).2))
    (.withSingle field value)

/-- `Shard::hash_set_ref`: overwrites a present field through `get_mut`. -/
def hashSetRef (field value : Bytes) : UInt64 → EntryFn (Fallible Bool) :=
  hashSetWith
    (fun fields =>
      if (fields.get field).isSome then (.ok false, fields.setMut field value)
      else (.ok true, (fields.insert field value).2))
    (.withSingle field value)

/-- `Shard::hash_set_bytes`. -/
def hashSetBytes (field value : Bytes) : UInt64 → EntryFn (Fallible Bool) :=
  hashSet field value

/-- `Shard::hash_get`. -/
def hashGet (field : Bytes) : UInt64 → EntryFn (Fallible (Option Bytes)) :=
  readAs Value.asHash (fun fields => fields.get field) none

/-- Remove the fields one by one; the number removed and the rest. -/
def removeFields (fields : List Bytes) (store : HashStore) :
    Int64 × HashStore :=
  fields.foldl
    (fun (removed, store) field =>
      let (old, store) := store.remove field
      (if old.isSome then removed + 1 else removed, store))
    (0, store)

/-- `Shard::hash_del`. -/
def hashDel (fields : List Bytes) : UInt64 → EntryFn (Fallible Int64) :=
  updateAs Value.asHash .hash
    (fun store =>
      let (removed, store) := removeFields fields store
      (.ok removed, if store.len = 0 then none else some store))
    (.ok 0, none)

/-- `Shard::hash_len`. -/
def hashLen : UInt64 → EntryFn (Fallible Int64) :=
  readAs Value.asHash (fun fields => Int64.ofNat fields.len) 0

/-- `Shard::hash_exists`. -/
def hashExists (field : Bytes) : UInt64 → EntryFn (Fallible Bool) :=
  readAs Value.asHash (fun fields => fields.containsKey field) false

/-- `Shard::hash_getall`. -/
def hashGetall : UInt64 → EntryFn (Fallible (List (Bytes × Bytes))) :=
  readAs Value.asHash HashStore.iter []

/-- `Shard::hash_incr_by`: a missing field counts as zero. -/
def hashIncrBy (field : Bytes) (delta : Int64) :
    UInt64 → EntryFn (Fallible Int64) :=
  updateAs Value.asHash .hash
    (fun fields =>
      let current : Option Int64 := match fields.get field with
        | some text => parseI64 text
        | none => some 0
      match current with
      | some n =>
          (.ok (n + delta),
            some (fields.insert field (writeI64Bytes (n + delta))).2)
      | none => (.error (), some fields))
    (.ok delta, some (.hash (.withSingle field (writeI64Bytes delta))))

/-- `Shard::hash_set_nx`. -/
def hashSetNx (field value : Bytes) : UInt64 → EntryFn (Fallible Bool) :=
  updateAs Value.asHash .hash
    (fun fields =>
      if fields.containsKey field then (.ok false, some fields)
      else (.ok true, some (fields.insert field value).2))
    (.ok true, some (.hash (.withSingle field value)))

/-! ## Sets -/

/-- Insert the members one by one; the number that were new and the set. -/
def insertMembers (members : List Bytes) (items : ByteSet) : Int64 × ByteSet :=
  members.foldl
    (fun (added, items) member =>
      (if items.contains member then added else added + 1, items.insert member))
    (0, items)

/-- `Shard::set_add`. -/
def setAdd (members : List Bytes) : UInt64 → EntryFn (Fallible Int64) :=
  updateAs Value.asSet .set
    (fun items =>
      (.ok (insertMembers members items).1, some (insertMembers members items).2))
    (.ok (insertMembers members ∅).1, some (.set (insertMembers members ∅).2))

/-- `Shard::set_add_single_bytes`. -/
def setAddSingleBytes (member : Bytes) : UInt64 → EntryFn (Fallible Int64) :=
  updateAs Value.asSet .set
    (fun items =>
      if items.contains member then (.ok 0, some items)
      else (.ok 1, some (items.insert member)))
    (.ok 1, some (.set ((∅ : ByteSet).insert member)))

/-- Remove the members one by one; the number removed and the rest. -/
def removeMembers (members : List Bytes) (items : ByteSet) : Int64 × ByteSet :=
  members.foldl
    (fun (removed, items) member =>
      (if items.contains member then removed + 1 else removed,
        items.erase member))
    (0, items)

/-- `Shard::set_remove`. -/
def setRemove (members : List Bytes) : UInt64 → EntryFn (Fallible Int64) :=
  updateAs Value.asSet .set
    (fun items =>
      let (removed, items) := removeMembers members items
      (.ok removed, if items.isEmpty then none else some items))
    (.ok 0, none)

/-- `Shard::set_members`, in iteration order. -/
def setMembers : UInt64 → EntryFn (Fallible (List Bytes)) :=
  readAs Value.asSet Std.ExtTreeSet.toList []

/-- `Shard::set_is_member`. -/
def setIsMember (member : Bytes) : UInt64 → EntryFn (Fallible Bool) :=
  readAs Value.asSet (fun items => items.contains member) false

/-- `Shard::set_card`. -/
def setCard : UInt64 → EntryFn (Fallible Int64) :=
  readAs Value.asSet (fun items => Int64.ofNat items.size) 0

/-! ## Sorted sets -/

/-- `Shard::zadd`. -/
def zadd (score : F64) (member : Bytes) : UInt64 → EntryFn (Fallible Bool) :=
  updateAs Value.asZSet .zset
    (fun items =>
      (.ok (!items.contains member), some (items.insert member score)))
    (.ok true, some (.zset ((∅ : ByteMap F64).insert member score)))

/-- Remove the members one by one; the number removed and the rest. -/
def removeScores (members : List Bytes) (items : ByteMap F64) :
    Int64 × ByteMap F64 :=
  members.foldl
    (fun (removed, items) member =>
      (if items.contains member then removed + 1 else removed,
        items.erase member))
    (0, items)

/-- `Shard::zrem`. -/
def zrem (members : List Bytes) : UInt64 → EntryFn (Fallible Int64) :=
  updateAs Value.asZSet .zset
    (fun items =>
      let (removed, items) := removeScores members items
      (.ok removed, if items.isEmpty then none else some items))
    (.ok 0, none)

/-- `Shard::zcard`. -/
def zcard : UInt64 → EntryFn (Fallible Int64) :=
  readAs Value.asZSet (fun items => Int64.ofNat items.size) 0

/-- The comparison `zrange` sorts by: score, then member. -/
def scoreOrder (left right : Bytes × F64) : Ordering :=
  ((left.2.partialCmp right.2).getD .eq).then (compare left.1 right.1)

/-- The members in the order `zrange` lists them. -/
def sortedByScore (items : ByteMap F64) : List Bytes :=
  (items.toList.insertionSort fun left right => scoreOrder left right ≠ .gt).map
    Prod.fst

/-- `Shard::zrange`. -/
def zrange (start stop : Int64) : UInt64 → EntryFn (Fallible (List Bytes)) :=
  readAs Value.asZSet (fun items => sliceRange (sortedByScore items) start stop) []

/-! ## Streams -/

/-- The ID `stream_add` gives the next entry of a stream. -/
def nextStreamId (items : List StreamEntry) : String :=
  toString (items.length + 1) ++ "-0"

/-- `Shard::stream_add`: only the automatic ID is accepted. -/
def streamAdd (id : String) (fields : List (Bytes × Bytes)) (now : UInt64) :
    EntryFn (Fallible String) :=
  if id = "*" then
    updateAs Value.asStream .stream
      (fun items =>
        (.ok (nextStreamId items), some (items ++ [(nextStreamId items, fields)])))
      (.ok "1-0", some (.stream [("1-0", fields)]))
      now
  else live now fun entry => (.error (), entry)

/-- `Shard::stream_range`: only the full range is answered. -/
def streamRange (start stop : String) :
    UInt64 → EntryFn (Fallible (List StreamEntry)) :=
  readAs Value.asStream
    (fun items =>
      if start = "-" ∧ stop = "+" then items else []) []

/-- `Shard::stream_len`. -/
def streamLen : UInt64 → EntryFn (Fallible Int64) :=
  readAs Value.asStream lenI64 0

/-- `Shard::stream_rev_range`: only the full range is answered. -/
def streamRevRange (start stop : String) :
    UInt64 → EntryFn (Fallible (List StreamEntry)) :=
  readAs Value.asStream
    (fun items =>
      if start = "+" ∧ stop = "-" then items.reverse else []) []

/-- `Shard::stream_del`. -/
def streamDel (ids : List String) : UInt64 → EntryFn (Fallible Int64) :=
  updateAs Value.asStream .stream
    (fun items =>
      let kept := items.filter fun item => !ids.contains item.1
      (.ok (Int64.ofNat (items.length - kept.length)), some kept))
    (.ok 0, none)

end Shard
end Cache
end MuonJs
