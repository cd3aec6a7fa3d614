import MuonJs.Cache.Commands
import MuonJs.Cache.Sessions
import MuonJs.Lib.Coupling

/-!
# Integers and their decimal texts

A number is stored as `Value::Int` by `INCRBY` and as a string by `SET`.  No
method of the database sees the difference, except for the one that copies the
items of a shard, and a snapshot writes the same rows for both.  Servers whose
databases differ in nothing else give the same replies for ever.
-/

namespace MuonJs
namespace Cache

/-! ## The decimal text is read back -/

namespace Store

theorem lt_or_gt_of_isAsciiDigit {byte : UInt8} (isDigit : isAsciiDigit byte = true) :
    (byte < 48 || byte > 57) = false := by
  rw [isAsciiDigit, Bool.and_eq_true, decide_eq_true_eq, decide_eq_true_eq] at isDigit
  rw [Bool.or_eq_false_iff, decide_eq_false_iff_not, decide_eq_false_iff_not,
    UInt8.not_lt, gt_iff_lt, UInt8.not_lt]
  exact isDigit

/-- The loop reads digits whose value does not exceed `i64::MAX + 1`. -/
theorem parseI64Loop_digits
    {value total : ℕ} {digits : Bytes}
    (isTotal : digitsFrom value digits = some total) (inRange : total ≤ 2 ^ 63) :
    parseI64Loop value digits = some (total : ℤ) := by
  induction digits generalizing value with
  | nil =>
      cases isTotal
      rfl
  | cons byte rest ih =>
      obtain ⟨isDigit, isRest⟩ := isAsciiDigit_of_digitsFrom isTotal
      have small := le_of_digitsFrom isRest
      have notLarge : ¬((value : ℤ) * 10 + (byte.toNat - 48 : ℕ) > 2 ^ 63) := by
        omega
      rw [parseI64Loop, lt_or_gt_of_isAsciiDigit isDigit, if_neg Bool.false_ne_true]
      dsimp only
      rw [if_neg notLarge]
      exact ih isRest

/-- `parse_i64_bytes` reads back what `write_i64_bytes` writes, down to
`i64::MIN`. -/
theorem parseI64Bytes_writeI64Bytes (number : Int64) :
    parseI64Bytes (writeI64Bytes number) = some number := by
  have low : -2 ^ 63 ≤ number.toInt := Int64.le_toInt number
  have high : number.toInt < 2 ^ 63 := Int64.toInt_lt number
  obtain ⟨digit, rest, isText, isDigit, isValue⟩ := natBytes_spec number.toInt.natAbs
  have loop := parseI64Loop_digits isValue (by omega)
  unfold writeI64Bytes parseI64Bytes
  by_cases negative : number.toInt < 0
  · have sameInt : (-1 : ℤ) * (number.toInt.natAbs : ℤ) = number.toInt := by omega
    rw [if_pos negative, isText]
    simp only [List.isEmpty_cons, Bool.false_eq_true, if_false]
    rw [show ((0 : ℤ) = ((0 : ℕ) : ℤ)) from rfl, loop, Option.bind_some, sameInt, toI64,
      if_pos ⟨low, high⟩, Int64.ofInt_toInt]
  · have sameInt : (1 : ℤ) * (number.toInt.natAbs : ℤ) = number.toInt := by omega
    have notMinus : digit ≠ 45 := by
      rintro rfl
      cases isDigit
    have notPlus : digit ≠ 43 := by
      rintro rfl
      cases isDigit
    rw [if_neg negative, isText]
    split
    rename_i sign digits isSplit
    have isPositive : sign = 1 ∧ digits = digit :: rest := by
      split at isSplit
      · rename_i same
        exact absurd (List.cons.inj same).1 notMinus
      · rename_i same
        exact absurd (List.cons.inj same).1 notPlus
      · cases isSplit
        exact ⟨rfl, rfl⟩
    rw [isPositive.1, isPositive.2]
    simp only [List.isEmpty_cons, Bool.false_eq_true, if_false]
    rw [show ((0 : ℤ) = ((0 : ℕ) : ℤ)) from rfl, loop, Option.bind_some, sameInt, toI64,
      if_pos ⟨low, high⟩, Int64.ofInt_toInt]

end Store

/-! ## Values up to their representation -/

/-- The value with an integer written out. -/
def Value.plain : Value → Value
  | .int number => .string (writeI64Bytes number)
  | value => value

namespace Entry

/-- The entry with an integer written out. -/
def plain (entry : Entry) : Entry := entry.withValue entry.value.plain

@[simp] theorem plain_value (entry : Entry) : entry.plain.value = entry.value.plain := rfl

@[simp] theorem plain_expiresAt (entry : Entry) :
    entry.plain.expiresAt = entry.expiresAt := rfl

@[simp] theorem plain_plain (entry : Entry) : entry.plain.plain = entry.plain := by
  obtain ⟨value, expiresAt⟩ := entry
  cases value <;> rfl

@[simp] theorem plain_expired (entry : Entry) (now : UInt64) :
    entry.plain.expired now = entry.expired now := rfl

theorem filter_live_map_plain (entry : Option Entry) (now : UInt64) :
    (entry.map plain).filter (live now) = (entry.filter (live now)).map plain := by
  rw [Option.filter_map]
  rfl

end Entry

namespace Shard

/-- A method that does the same to an integer and to its decimal text. -/
def FormBlind (method : EntryFn α) : Prop :=
  ∀ entry, (method (entry.map Entry.plain)).1 = (method entry).1 ∧
    (method (entry.map Entry.plain)).2.map Entry.plain =
      (method entry).2.map Entry.plain

theorem FormBlind.live
    {method : EntryFn α} (blind : FormBlind method) (now : UInt64) :
    FormBlind (live now method) := by
  intro entry
  unfold Shard.live
  rw [Entry.filter_live_map_plain]
  exact blind _

/-- What a method reads of a value is the same for an integer and its text. -/
def KindBlind (kind : Value → Option β) : Prop :=
  ∀ value, kind value.plain = kind value

theorem readAs_blind
    {kind : Value → Option β} (blind : KindBlind kind)
    (found : β → α) (missing : α) (now : UInt64) :
    FormBlind (readAs kind found missing now) := by
  refine FormBlind.live (fun entry => ?_) now
  cases entry with
  | none => exact ⟨rfl, rfl⟩
  | some stored =>
      dsimp only [Option.map_some]
      rw [Entry.plain_value, blind]
      split
      · exact ⟨rfl, by rw [Option.map_some, Option.map_some, Entry.plain_plain]⟩
      · exact ⟨rfl, by rw [Option.map_some, Option.map_some, Entry.plain_plain]⟩

theorem updateAs_blind
    {kind : Value → Option β} (blind : KindBlind kind) (wrap : β → Value)
    (change : β → Fallible α × Option β) (missing : Fallible α × Option Value)
    (now : UInt64) :
    FormBlind (updateAs kind wrap change missing now) := by
  refine FormBlind.live (fun entry => ?_) now
  cases entry with
  | none => exact ⟨rfl, rfl⟩
  | some stored =>
      dsimp only [Option.map_some]
      rw [Entry.plain_value, blind]
      split
      · exact ⟨rfl, rfl⟩
      · exact ⟨rfl, by rw [Option.map_some, Option.map_some, Entry.plain_plain]⟩

theorem hashSetWith_blind
    (insert : HashStore → Fallible Bool × HashStore) (fresh : HashStore)
    (now : UInt64) :
    FormBlind (hashSetWith insert fresh now) := by
  intro entry
  cases entry with
  | none => exact ⟨rfl, rfl⟩
  | some stored =>
      obtain ⟨value, expiresAt⟩ := stored
      unfold hashSetWith
      dsimp only [Option.map_some]
      rw [Entry.plain_expired]
      split
      · exact ⟨rfl, rfl⟩
      · cases value <;> exact ⟨rfl, rfl⟩

theorem asList_blind : KindBlind Value.asList := by
  intro value
  cases value <;> rfl

theorem asSet_blind : KindBlind Value.asSet := by
  intro value
  cases value <;> rfl

theorem asHash_blind : KindBlind Value.asHash := by
  intro value
  cases value <;> rfl

theorem asZSet_blind : KindBlind Value.asZSet := by
  intro value
  cases value <;> rfl

theorem asStream_blind : KindBlind Value.asStream := by
  intro value
  cases value <;> rfl

theorem asString_blind : KindBlind Value.asString := by
  intro value
  cases value <;> rfl

theorem counterOf_blind : KindBlind counterOf := by
  intro value
  cases value with
  | int number =>
      change some _ = some _
      rw [Store.parseI64Bytes_writeI64Bytes]
  | _ => rfl

theorem incrBy_blind (delta : Int64) (now : UInt64) : FormBlind (incrBy delta now) := by
  refine FormBlind.live (fun entry => ?_) now
  cases entry with
  | none => exact ⟨rfl, rfl⟩
  | some stored =>
      dsimp only [Option.map_some]
      rw [Entry.plain_value, counterOf_blind]
      split
      · exact ⟨rfl, rfl⟩
      · exact ⟨rfl, by rw [Option.map_some, Option.map_some, Entry.plain_plain]⟩
      · exact ⟨rfl, by rw [Option.map_some, Option.map_some, Entry.plain_plain]⟩

/-- A method that only asks about the entry it leaves. -/
theorem asks_blind
    {ask : Option Entry → α} (blind : ∀ stored, ask (some stored.plain) = ask (some stored)) :
    FormBlind fun entry => (ask entry, entry) := by
  intro entry
  cases entry with
  | none => exact ⟨rfl, rfl⟩
  | some stored => exact ⟨blind stored, congrArg some stored.plain_plain⟩

end Shard

/-- No single-key method looks at the representation. -/
theorem EntryOp.apply_blind (op : EntryOp) (now : UInt64) :
    Shard.FormBlind (op.apply now) := by
  cases op with
  | set | setString => exact fun entry => ⟨rfl, rfl⟩
  | setStringRef =>
      intro entry
      cases entry <;> exact ⟨rfl, rfl⟩
  | remove =>
      intro entry
      cases entry <;> exact ⟨rfl, rfl⟩
  | keyExists => exact (Shard.asks_blind fun _ => rfl).live now
  | valueType =>
      refine (Shard.asks_blind fun stored => ?_).live now
      obtain ⟨value, expiresAt⟩ := stored
      cases value <;> rfl
  | ttlMs =>
      intro entry
      cases entry with
      | none => exact ⟨rfl, rfl⟩
      | some stored =>
          obtain ⟨value, expiresAt⟩ := stored
          unfold apply Shard.ttlMs
          cases expiresAt with
          | none => exact ⟨rfl, congrArg some (Entry.plain_plain ⟨value, none⟩)⟩
          | some ts =>
              dsimp only [Option.map_some, Entry.plain_expiresAt]
              split
              · exact ⟨rfl, rfl⟩
              · exact ⟨rfl, congrArg some (Entry.plain_plain ⟨value, some ts⟩)⟩
  | setExpireMs ttl =>
      intro entry
      cases entry with
      | none => exact ⟨rfl, rfl⟩
      | some stored =>
          obtain ⟨value, expiresAt⟩ := stored
          cases value <;> exact ⟨rfl, rfl⟩
  | persist =>
      refine Shard.FormBlind.live (fun entry => ?_) now
      cases entry with
      | none => exact ⟨rfl, rfl⟩
      | some stored =>
          obtain ⟨value, expiresAt⟩ := stored
          cases value <;> exact ⟨rfl, rfl⟩
  | setNx value =>
      refine Shard.FormBlind.live (fun entry => ?_) now
      cases entry with
      | none => exact ⟨rfl, rfl⟩
      | some stored => exact ⟨rfl, congrArg some stored.plain_plain⟩
  | getString => exact Shard.readAs_blind Shard.asString_blind _ _ now
  | append => exact Shard.updateAs_blind Shard.asString_blind _ _ _ now
  | incrBy delta => exact Shard.incrBy_blind delta now
  | listRange | listLen | listIndex => exact Shard.readAs_blind Shard.asList_blind _ _ now
  | listPush | listPop | listSet | listInsert | listRem | listPushX | listTrim =>
      exact Shard.updateAs_blind Shard.asList_blind _ _ _ now
  | hashSet | hashSetRef | hashSetBytes => exact Shard.hashSetWith_blind _ _ now
  | hashGet | hashLen | hashExists | hashGetall =>
      exact Shard.readAs_blind Shard.asHash_blind _ _ now
  | hashDel | hashIncrBy | hashSetNx => exact Shard.updateAs_blind Shard.asHash_blind _ _ _ now
  | setMembers | setIsMember | setCard => exact Shard.readAs_blind Shard.asSet_blind _ _ now
  | setAdd | setAddSingleBytes | setRemove =>
      exact Shard.updateAs_blind Shard.asSet_blind _ _ _ now
  | zcard | zrange => exact Shard.readAs_blind Shard.asZSet_blind _ _ now
  | zadd | zrem => exact Shard.updateAs_blind Shard.asZSet_blind _ _ _ now
  | streamRange | streamLen | streamRevRange =>
      exact Shard.readAs_blind Shard.asStream_blind _ _ now
  | streamDel => exact Shard.updateAs_blind Shard.asStream_blind _ _ _ now
  | streamAdd id fields =>
      change Shard.FormBlind (Shard.streamAdd id fields now)
      unfold Shard.streamAdd
      split
      · exact Shard.updateAs_blind Shard.asStream_blind _ _ _ now
      · exact (Shard.asks_blind fun _ => rfl).live now

/-! ## Databases up to the representation of their values -/

namespace Shard

/-- The maps hold the same up to the representation of integers. -/
def Alike (left right : ByteMap Entry) : Prop :=
  (left.map fun _ entry => entry.plain) = right.map fun _ entry => entry.plain

theorem getElem?_map_plain (data : ByteMap Entry) (key : Bytes) :
    (data.map fun _ entry => entry.plain)[key]? = (data[key]?).map Entry.plain :=
  Std.ExtTreeMap.getElem?_map

theorem alike_iff {left right : ByteMap Entry} :
    Alike left right ↔
      ∀ key : Bytes, (left[key]?).map Entry.plain = (right[key]?).map Entry.plain := by
  constructor
  · intro alike key
    rw [← getElem?_map_plain, ← getElem?_map_plain]
    unfold Alike at alike
    rw [alike]
  · intro alike
    apply Std.ExtTreeMap.ext_getElem?
    intro key
    rw [getElem?_map_plain, getElem?_map_plain]
    exact alike key

namespace Alike

variable {left right : ByteMap Entry}

theorem purge (alike : Alike left right) (now : UInt64) :
    Alike (purgeExpiredAll now left) (purgeExpiredAll now right) := by
  rw [alike_iff] at alike ⊢
  intro key
  rw [lookup_purgeExpiredAll, lookup_purgeExpiredAll, ← Entry.filter_live_map_plain,
    ← Entry.filter_live_map_plain, alike key]

theorem keys_eq (alike : Alike left right) : left.keys = right.keys := by
  have same := congrArg Std.ExtTreeMap.keys alike
  rw [Std.ExtTreeMap.keys_map, Std.ExtTreeMap.keys_map] at same
  exact same

theorem size_eq (alike : Alike left right) : left.size = right.size := by
  have same := congrArg Std.ExtTreeMap.size alike
  rw [Std.ExtTreeMap.size_map, Std.ExtTreeMap.size_map] at same
  exact same

end Alike
end Shard

/-- The item with an integer written out. -/
def Item.plain (item : Item) : Item := (item.1, item.2.1.plain, item.2.2)

/-- Shards that hold the same have the same items. -/
theorem Shard.Alike.items
    {left right : ByteMap Entry} (alike : Alike left right) :
    (items left).map Item.plain = (items right).map Item.plain := by
  have written : ∀ data : ByteMap Entry, (Shard.items data).map Item.plain =
      Shard.items (data.map fun _ entry => entry.plain) := by
    intro data
    unfold Shard.items
    rw [Std.ExtTreeMap.toList_map, List.map_map, List.map_map]
    rfl
  rw [written, written, alike]

namespace Db

/-- The databases hold the same up to the representation of integers. -/
def Alike (left right : Db) : Prop :=
  ∀ key, (left.lookup key).map Entry.plain = (right.lookup key).map Entry.plain

namespace Alike

variable {left right : Db}

theorem refl (db : Db) : db.Alike db := fun _ => rfl

theorem symm (alike : left.Alike right) : right.Alike left := fun key => (alike key).symm

theorem shards (alike : left.Alike right) (index : Fin numShards) :
    Shard.Alike (left.shards index) (right.shards index) := by
  rw [Shard.alike_iff]
  intro key
  rw [shards_getElem?, shards_getElem?]
  split
  · exact alike key
  · rfl

theorem access
    (alike : left.Alike right) (key : Bytes) {method : EntryFn α}
    (blind : Shard.FormBlind method) :
    (left.access key method).1 = (right.access key method).1 ∧
      (left.access key method).2.Alike (right.access key method).2 := by
  obtain ⟨sameLeft, leavesLeft⟩ := blind (left.lookup key)
  obtain ⟨sameRight, leavesRight⟩ := blind (right.lookup key)
  rw [alike key] at sameLeft leavesLeft
  refine ⟨sameLeft.symm.trans sameRight, fun probe => ?_⟩
  rw [lookup_access, lookup_access]
  split
  · exact leavesLeft.symm.trans leavesRight
  · exact alike probe

theorem dropExpired (alike : left.Alike right) (now : UInt64) (key : Bytes) :
    (left.dropExpired now key).Alike (right.dropExpired now key) :=
  (alike.access key ((Shard.asks_blind fun _ => rfl).live now)).2

theorem takeMember_blind (member : Bytes) : Shard.FormBlind (Shard.takeMember member) := by
  intro entry
  cases entry with
  | none => exact ⟨rfl, rfl⟩
  | some stored =>
      obtain ⟨value, expiresAt⟩ := stored
      cases value with
      | set members =>
          exact ⟨rfl, rfl⟩
      | _ => exact ⟨rfl, rfl⟩

theorem addMember_blind (member : Bytes) : Shard.FormBlind (Shard.addMember member) := by
  intro entry
  cases entry with
  | none => exact ⟨rfl, rfl⟩
  | some stored =>
      obtain ⟨value, expiresAt⟩ := stored
      cases value <;> exact ⟨rfl, rfl⟩

theorem setMove (alike : left.Alike right) (now : UInt64) (source dest member : Bytes) :
    (left.setMove now source dest member).1 = (right.setMove now source dest member).1 ∧
      (left.setMove now source dest member).2.Alike
        (right.setMove now source dest member).2 := by
  obtain ⟨sameTaken, alikeTaken⟩ :=
    ((alike.dropExpired now source).dropExpired now dest).access source
      (takeMember_blind member)
  unfold Db.setMove
  dsimp only
  generalize ((left.dropExpired now source).dropExpired now dest).access source
    (Shard.takeMember member) = taken at sameTaken alikeTaken
  generalize ((right.dropExpired now source).dropExpired now dest).access source
    (Shard.takeMember member) = taken' at sameTaken alikeTaken
  obtain ⟨result, db⟩ := taken
  obtain ⟨result', db'⟩ := taken'
  cases sameTaken
  cases result with
  | error => exact ⟨rfl, alikeTaken⟩
  | ok isTaken =>
      cases isTaken with
      | false => exact ⟨rfl, alikeTaken⟩
      | true => exact alikeTaken.access dest (addMember_blind member)

theorem onShard
    (alike : left.Alike right) (index : Fin numShards)
    (change : ByteMap Entry → ByteMap Entry)
    (shrinks : ∀ data key, key ∈ change data → key ∈ data)
    (keeps : Shard.Alike (change (left.shards index)) (change (right.shards index))) :
    (left.onShard index change shrinks).Alike (right.onShard index change shrinks) := by
  intro key
  rw [lookup_onShard, lookup_onShard]
  split
  · exact Shard.alike_iff.mp keeps key
  · exact alike key

end Alike
end Db

/-- Databases that hold the same still do after a call. -/
theorem Db.Alike.exec
    {left right : Db} (alike : left.Alike right) (now : UInt64) (call : Call) :
    (call.exec now left).2.Alike (call.exec now right).2 := by
  cases call with
  | entry key op => exact (alike.access key (op.apply_blind now)).2
  | setMove source dest member => exact (alike.setMove now source dest member).2
  | shard index op =>
      cases op with
      | flush => exact alike.onShard index (fun _ => ∅) (fun _ _ stored => by simp at stored) rfl
      | _ =>
          exact alike.onShard index _ (Db.mem_purgeExpiredAll now)
            ((alike.shards index).purge now)

/-- The calls that do not return values. -/
def Call.HidesValues : Call → Prop
  | .shard _ .snapshotItems => False
  | _ => True

/-- Such a call returns the same on databases that hold the same. -/
theorem Db.Alike.result
    {left right : Db} (alike : left.Alike right) (now : UInt64) {call : Call}
    (hides : call.HidesValues) :
    (call.exec now left).1 = (call.exec now right).1 := by
  have purged := fun index => (alike.shards index).purge now
  cases call with
  | entry key op => exact (alike.access key (op.apply_blind now)).1
  | setMove source dest member => exact (alike.setMove now source dest member).1
  | shard index op =>
      cases op with
      | purgeExpiredAll => rfl
      | snapshotItems => exact hides.elim
      | len => exact (purged index).size_eq
      | keys => exact (purged index).keys_eq
      | keysMatching pattern =>
          change Shard.matchingKeys _ _ = Shard.matchingKeys _ _
          unfold Shard.matchingKeys
          rw [(purged index).keys_eq]
      | flush => exact (alike.shards index).size_eq

/-- The same calls panic. -/
theorem Db.Alike.panics
    {left right : Db} (alike : left.Alike right) (now : UInt64) (call : Call) :
    call.panics now left = call.panics now right := by
  cases call with
  | entry key op =>
      cases op with
      | listTrim start stop =>
          have items : ∀ db : Db, ((db.visible now key).bind fun stored =>
              stored.value.asList) =
                (((db.lookup key).map Entry.plain).filter (Entry.live now)).bind
                  fun stored => stored.value.asList := by
            intro db
            rw [Entry.filter_live_map_plain, Option.bind_map]
            congr 1
            funext stored
            exact (Shard.asList_blind stored.value).symm
          unfold Call.panics
          dsimp only
          rw [items left, items right, alike key]
      | _ => rfl
  | setMove source dest member => rfl
  | shard index op => rfl

/-! ## Servers -/

/-- The databases hold the same, one by one. -/
def Dbs.Alike (left right : Dbs n) : Prop := ∀ idx, (left idx).Alike (right idx)

/-- The servers differ in the representation of integers only. -/
structure ServerState.Alike (left right : ServerState n) : Prop where
  dbs : Dbs.Alike left.dbs right.dbs
  scripts : left.scripts = right.scripts
  log : left.log = right.log
  saved : Option.Rel Dbs.Alike left.saved right.saved
  channels : left.channels = right.channels
  queues : left.queues = right.queues

namespace ServerCall

/-- The calls that neither return nor pass on values. -/
def HidesValues : ServerCall n → Prop
  | .db _ call => call.HidesValues
  | .snapshot _ => False
  | _ => True

/-- The calls that stand for one another, with their results. -/
inductive Alike : Coupling (signature n)
  | same {call : ServerCall n} (hides : call.HidesValues) : Alike call call Eq
  | items (idx : Fin n) (index : Fin numShards) :
      Alike (.db idx (.shard index .snapshotItems)) (.db idx (.shard index .snapshotItems))
        fun (left right : List Item) => left.map Item.plain = right.map Item.plain
  | snapshot {left right : Dbs n} (alike : left.Alike right) :
      Alike (.snapshot left) (.snapshot right) Eq

end ServerCall

namespace ServerState.Alike

variable {left right : ServerState n}

theorem symm (alike : left.Alike right) : right.Alike left where
  dbs := fun idx => (alike.dbs idx).symm
  scripts := alike.scripts.symm
  log := alike.log.symm
  saved := by
    have saved := alike.saved
    generalize left.saved = first at saved ⊢
    generalize right.saved = second at saved ⊢
    cases saved with
    | none => exact .none
    | some same => exact .some fun idx => (same idx).symm
  channels := alike.channels.symm
  queues := alike.queues.symm

theorem register (alike : left.Alike right) (sender : ℕ) (channels : List Bytes) :
    (channels.foldl (ServerState.register sender) left).Alike
      (channels.foldl (ServerState.register sender) right) := by
  induction channels generalizing left right with
  | nil => exact alike
  | cons channel channels ih =>
      refine ih { alike with channels := ?_ }
      change Function.update _ _ _ = Function.update _ _ _
      rw [alike.channels]

theorem trySend (alike : left.Alike right) (receiver : ℕ) (message : RespValue) :
    (left.trySend receiver message).1 = (right.trySend receiver message).1 ∧
      (left.trySend receiver message).2.Alike (right.trySend receiver message).2 := by
  unfold ServerState.trySend
  rw [alike.queues]
  split
  · exact ⟨rfl, alike⟩
  · split
    · refine ⟨rfl, { alike with queues := ?_ }⟩
      change Function.update _ _ _ = Function.update _ _ _
      rw [alike.queues]
    · exact ⟨rfl, alike⟩

theorem updateDb
    (alike : left.Alike right) (idx : Fin n) {db db' : Db} (sameDb : db.Alike db') :
    ({ left with dbs := Function.update left.dbs idx db } : ServerState n).Alike
      { right with dbs := Function.update right.dbs idx db' } where
  dbs := by
    intro other
    change (Function.update left.dbs idx db other).Alike
      (Function.update right.dbs idx db' other)
    by_cases same : other = idx
    · subst same
      rw [Function.update_self, Function.update_self]
      exact sameDb
    · rw [Function.update_of_ne same, Function.update_of_ne same]
      exact alike.dbs other
  scripts := alike.scripts
  log := alike.log
  saved := alike.saved
  channels := alike.channels
  queues := alike.queues

/-- Calls that stand for one another keep servers alike and return such results. -/
theorem exec
    (moment : Moment) (call call' : ServerCall n) (results : call.Result → call'.Result → Prop)
    (left right : ServerState n)
    (coupled : ServerCall.Alike call call' results) (alike : left.Alike right) :
    results (call.exec moment left).1 (call'.exec moment right).1 ∧
      (call.exec moment left).2.Alike (call'.exec moment right).2 := by
  cases coupled with
  | items idx index =>
      refine ⟨?_, alike.updateDb idx ((alike.dbs idx).exec moment.now _)⟩
      exact (((alike.dbs idx).shards index).purge moment.now).items
  | snapshot sameCopies =>
      unfold ServerCall.exec
      cases moment.snapshot with
      | ok value => exact ⟨rfl, { alike with saved := .some sameCopies }⟩
      | error message => exact ⟨rfl, alike⟩
  | same hides =>
      cases call with
      | db idx call =>
          exact ⟨(alike.dbs idx).result moment.now hides,
            alike.updateDb idx ((alike.dbs idx).exec moment.now call)⟩
      | now | check => exact ⟨rfl, alike⟩
      | log idx cmd args =>
          refine ⟨rfl, { alike with log := ?_ }⟩
          change left.log ++ _ = right.log ++ _
          rw [alike.log]
      | scripts op =>
          refine ⟨?_, { alike with scripts := ?_ }⟩
          · change (op.apply left.scripts).1 = (op.apply right.scripts).1
            rw [alike.scripts]
          · change (op.apply left.scripts).2 = (op.apply right.scripts).2
            rw [alike.scripts]
      | snapshot copies => exact hides.elim
      | subscribe sender channels => exact ⟨rfl, alike.register sender channels⟩
      | receivers channel => exact ⟨congrFun alike.channels channel, alike⟩
      | trySend receiver message => exact alike.trySend receiver message

/-- Calls that stand for one another end the process in both servers or in none. -/
theorem fails
    (moment : Moment) {call call' : ServerCall n} {results : call.Result → call'.Result → Prop}
    (coupled : ServerCall.Alike call call' results) (alike : left.Alike right) :
    call.fails moment left = call'.fails moment right := by
  cases coupled with
  | items idx index => rfl
  | snapshot sameCopies => rfl
  | same hides =>
      cases call with
      | db idx call => exact (alike.dbs idx).panics moment.now call
      | _ => rfl

end ServerState.Alike

/-! ## What connections do -/

/-- The calls of a handler that do not return values. -/
def HandlerCall.HidesValues : HandlerCall → Prop
  | .db call => call.HidesValues
  | _ => True

/-- The calls of a script that do not return values. -/
def ScriptCall.HidesValues : ScriptCall → Prop
  | .fast call => call.HidesValues
  | .redisCall .. => True

/-- The fast path of `redis.call` calls the single-key methods, which return
bytes and numbers, never values. -/
def ScriptEngine.HidesValues (engine : ScriptEngine) : Prop :=
  ∀ context script keys argv,
    (engine.eval context script keys argv).Issues ScriptCall.HidesValues

theorem HandlerCall.hidesValues_of_ofRequest
    {cmd : Command} {args : List Bytes} (call : HandlerCall)
    (ofRequest : call.ofRequest cmd args) : call.HidesValues := by
  cases call with
  | db call =>
      cases call with
      | shard index op =>
          cases op with
          | snapshotItems => exact ofRequest
          | _ => trivial
      | _ => trivial
  | _ => trivial

namespace Handler

theorem handleNoDbCommand_ofRequest
    {current : Fin n} {cmd : Command} {args : List Bytes}
    {handler : Handler (RespValue × Fin n)}
    (isOwn : handleNoDbCommand current cmd args = some handler) :
    handler.Issues (HandlerCall.ofRequest cmd args) := by
  have ofMeta : ∀ {cmd : Command},
      ((metaCmds cmd args).map fun handler : Handler RespValue => do
        return (← handler, current)) = some handler →
      handler.Issues (HandlerCall.ofRequest cmd args) := by
    intro cmd isMeta
    obtain ⟨original, isOriginal, rfl⟩ := Option.map_eq_some_iff.mp isMeta
    exact (@metaCmds_shape ⟨none, true⟩ _ _ _ isOriginal).ofRequest.bind fun _ => trivial
  cases cmd with
  | ping | echo =>
      cases isOwn
      split <;> trivial
  | select =>
      cases isOwn
      split
      · split <;> trivial
      · trivial
  | _ => exact ofMeta isOwn

end Handler

theorem onDb_issues
    (idx : Fin n) {handler : Handler α} (issues : handler.Issues HandlerCall.HidesValues) :
    (onDb idx handler).Issues ServerCall.HidesValues := by
  refine Program.Issues.interpret (fun call hides => ?_) issues
  cases call <;> exact ⟨hides, fun _ => trivial⟩

namespace Server

variable {engine : ScriptEngine}

/-- Programs of connections that do the same on servers that are alike. -/
abbrev Coupled (values : α → β → Prop) : Session n α → Session n β → Prop :=
  Program.Coupled ServerCall.Alike values

theorem coupled_of_issues
    {session : Session n α} (issues : session.Issues ServerCall.HidesValues) :
    Coupled Eq session session :=
  Program.Coupled.refl (fun _ hides => .same hides) issues

theorem handleNoDbCommand_issues
    {current : Fin n} {cmd : Command} {args : List Bytes}
    {handler : Handler (RespValue × Fin n)}
    (isOwn : Handler.handleNoDbCommand current cmd args = some handler) :
    (onDb current handler).Issues ServerCall.HidesValues :=
  onDb_issues current ((Handler.handleNoDbCommand_ofRequest isOwn).mono
    HandlerCall.hidesValues_of_ofRequest)

theorem handleCommand_issues
    (context : HandlerContext) (current : Fin n) (cmd : Command) (args : List Bytes) :
    (onDb current (Handler.handleCommand context cmd args)).Issues
      ServerCall.HidesValues :=
  onDb_issues current (Handler.handleCommand_ofRequest.mono
    HandlerCall.hidesValues_of_ofRequest)

theorem flushAll_issues (indices : List (Fin n)) :
    (flushAll indices).Issues ServerCall.HidesValues := by
  induction indices with
  | nil => trivial
  | cons idx indices ih =>
      refine Program.Issues.bind ?_ fun _ => ih
      have issues : Db.flush.Issues Call.HidesValues :=
        (Db.eachShard_issues .flush fun _ => trivial).bind fun _ => trivial
      refine Program.Issues.interpret (fun call hides => ?_) issues
      exact ⟨hides, fun _ => trivial⟩

theorem redisCall_issues
    (persist : Option Bool) (current : Fin n) (name : Bytes) (args : List Bytes) :
    (redisCall persist current name args).Issues ServerCall.HidesValues := by
  unfold redisCall
  split
  · trivial
  · split
    · rename_i isOwn
      exact (handleNoDbCommand_issues isOwn).bind fun _ => trivial
    · exact (handleCommand_issues _ _ _ _).bind fun _ => trivial

theorem runScript_issues
    (persist : Option Bool) (held : Fin n) {script : Program ScriptCall.signature α}
    (issues : script.Issues ScriptCall.HidesValues) (current : Fin n) :
    (runScript persist held script current).Issues ServerCall.HidesValues := by
  induction script generalizing current with
  | pure value => trivial
  | call call next ih =>
      cases call with
      | fast call => exact ⟨issues.1, fun result => ih result (issues.2 result) current⟩
      | redisCall name args =>
          exact (redisCall_issues persist current name args).bind fun outcome =>
            ih outcome.1 (issues.2 outcome.1) outcome.2

theorem splitEvalArgs_issues (args : List Bytes) :
    (splitEvalArgs args : Session n _).Issues ServerCall.HidesValues := by
  unfold splitEvalArgs
  split
  · trivial
  · split
    · trivial
    · split
      · trivial
      · exact ⟨trivial, fun _ => trivial⟩

theorem prepareEval_issues (cmd : Command) (args : List Bytes) :
    (prepareEval cmd args : Session n _).Issues ServerCall.HidesValues := by
  unfold prepareEval
  split
  · split
    · trivial
    · split
      · exact ⟨trivial, fun _ => (splitEvalArgs_issues _).bind fun _ => trivial⟩
      · refine ⟨trivial, fun script => ?_⟩
        cases script with
        | none => trivial
        | some script => exact (splitEvalArgs_issues _).bind fun _ => trivial
  · trivial

theorem handleEvalCommand_issues
    (hides : engine.HidesValues) (persist : Option Bool) (client : Client engine n)
    (cmd : Command) (args : List Bytes) :
    (handleEvalCommand engine persist client cmd args).Issues ServerCall.HidesValues := by
  unfold handleEvalCommand
  refine (prepareEval_issues cmd args).bind fun prepared => ?_
  cases prepared with
  | error reply => trivial
  | ok split =>
      exact (runScript_issues persist client.current (hides _ _ _ _) _).bind
        fun _ => trivial

/-- Copies with alike items are alike. -/
theorem setItems_alike
    {left right : Db} (alike : left.Alike right) {items items' : List Item}
    (sameItems : items.map Item.plain = items'.map Item.plain) :
    (left.setItems items).Alike (right.setItems items') := by
  induction items generalizing items' left right with
  | nil =>
      rw [List.map_nil, eq_comm, List.map_eq_nil_iff] at sameItems
      subst sameItems
      exact alike
  | cons item items ih =>
      cases items' with
      | nil => cases sameItems
      | cons item' items' =>
          obtain ⟨key, value, exp⟩ := item
          obtain ⟨key', value', exp'⟩ := item'
          rw [List.map_cons, List.map_cons, List.cons.injEq] at sameItems
          obtain ⟨sameItem, sameRest⟩ := sameItems
          have samePlain : value.plain = value'.plain :=
            congrArg (fun item : Item => item.2.1) sameItem
          have sameExp : exp = exp' := congrArg (fun item : Item => item.2.2) sameItem
          obtain rfl : key = key' := congrArg (fun item : Item => item.1) sameItem
          subst sameExp
          refine @ih _ _ (fun probe => ?_) items' sameRest
          rw [Db.lookup_access, Db.lookup_access]
          split
          · exact congrArg (fun value => some (⟨value, exp⟩ : Entry)) samePlain
          · exact alike probe

theorem shardsInTurn_coupled (idx : Fin n) (indices : List (Fin numShards)) :
    Coupled (fun (left right : List (List Item)) =>
        left.map (List.map Item.plain) = right.map (List.map Item.plain))
      (dbMethod idx (Db.shardsInTurn .snapshotItems indices))
      (dbMethod idx (Db.shardsInTurn .snapshotItems indices)) := by
  induction indices with
  | nil => exact .pure rfl
  | cons index indices ih =>
      rw [Db.shardsInTurn_cons]
      refine .call (.items idx index) fun items items' sameItems => ?_
      change Coupled _ (Program.interpret _ (Db.shardsInTurn .snapshotItems indices >>= _))
        (Program.interpret _ (Db.shardsInTurn .snapshotItems indices >>= _))
      rw [Program.interpret_bind, Program.interpret_bind]
      refine ih.bind fun results results' sameResults => .pure ?_
      rw [List.map_cons, List.map_cons, sameItems, sameResults]

theorem snapshotItems_coupled (idx : Fin n) :
    Coupled (fun (left right : List Item) => left.map Item.plain = right.map Item.plain)
      (dbMethod idx Db.snapshotItems) (dbMethod idx Db.snapshotItems) := by
  unfold Db.snapshotItems dbMethod
  rw [Program.interpret_bind]
  refine (shardsInTurn_coupled idx _).bind fun results results' sameResults => .pure ?_
  rw [List.map_flatten, List.map_flatten, sameResults]

theorem snapshotDbs_coupled (indices : List (Fin n)) :
    Coupled Dbs.Alike (snapshotDbs indices) (snapshotDbs indices) := by
  induction indices with
  | nil => exact .pure fun _ => Db.Alike.refl _
  | cons idx indices ih =>
      refine (snapshotItems_coupled idx).bind fun items items' sameItems =>
        ih.bind fun copies copies' sameCopies => .pure fun other => ?_
      by_cases same : other = idx
      · subst same
        rw [Function.update_self, Function.update_self]
        exact setItems_alike (Db.Alike.refl _) sameItems
      · rw [Function.update_of_ne same, Function.update_of_ne same]
        exact sameCopies other

theorem handleSaveLikeCommand_coupled
    {persist : Option Bool} {cmd : Command} {args : List Bytes}
    {save : Session n RespValue}
    (isSave : handleSaveLikeCommand persist cmd args = some save) :
    Coupled Eq save save := by
  unfold handleSaveLikeCommand at isSave
  split at isSave
  case isFalse => cases isSave
  case isTrue =>
    cases isSave
    split
    · exact .pure rfl
    · refine (snapshotDbs_coupled _).bind fun copies copies' alike => ?_
      split
      · refine .call (.snapshot alike) ?_
        rintro result _ rfl
        cases result <;> exact .pure rfl
      · exact .pure rfl

theorem runCommand_coupled
    (hides : engine.HidesValues) (persist : Option Bool) (client : Client engine n)
    (cmd : Command) (args : List Bytes) :
    Coupled Eq (runCommand engine persist client cmd args)
      (runCommand engine persist client cmd args) := by
  unfold runCommand
  split
  · rename_i isSave
    refine (handleSaveLikeCommand_coupled isSave).bind ?_
    rintro reply _ rfl
    exact .pure rfl
  · apply coupled_of_issues
    split
    · rename_i isOwn
      exact (handleNoDbCommand_issues isOwn).bind fun _ => trivial
    · split
      · refine Program.Issues.bind ?_ fun _ => trivial
        unfold handleFlushallCommand
        split
        · trivial
        · refine (flushAll_issues _).bind fun _ => ?_
          split
          · exact ⟨trivial, fun _ => trivial⟩
          · trivial
      · split
        · exact handleEvalCommand_issues hides persist client cmd args
        · exact (handleCommand_issues _ _ _ _).bind fun _ => trivial

theorem runQueued_coupled
    (hides : engine.HidesValues) (persist : Option Bool) (client : Client engine n)
    (queued : List (Command × List Bytes)) :
    Coupled Eq (runQueued engine persist client queued)
      (runQueued engine persist client queued) := by
  induction queued generalizing client with
  | nil => exact .pure rfl
  | cons request queued ih =>
      refine (runCommand_coupled hides persist client _ _).bind ?_
      rintro ⟨reply, client⟩ _ rfl
      refine (ih client).bind ?_
      rintro outcome _ rfl
      exact .pure rfl

theorem fastPath_issues
    {persist : Option Bool} {current : Fin n} {cmd : Command} {args : List Bytes}
    {reply : Session n FastResponse}
    (isFast : fastPath persist current cmd args = some reply) :
    reply.Issues ServerCall.HidesValues := by
  unfold fastPath at isFast
  split at isFast
  · split at isFast
    · cases isFast
      exact ⟨trivial, fun _ => trivial⟩
    · cases isFast
  · cases isFast
    exact ⟨trivial, fun _ => trivial⟩
  · split at isFast
    · cases isFast
      exact ⟨trivial, fun _ => trivial⟩
    · cases isFast
  · cases isFast
    refine Program.Issues.bind ?_ fun result => ?_
    · unfold handleLrangeFast
      split
      · refine ⟨trivial, fun items => ?_⟩
        cases items <;> trivial
      · trivial
    · cases result <;> trivial
  · cases isFast

theorem deliver_issues (message : RespValue) (delivered : Int64) (receivers : List ℕ) :
    (deliver message delivered receivers : Session n _).Issues ServerCall.HidesValues := by
  induction receivers generalizing delivered with
  | nil => trivial
  | cons receiver receivers ih => exact ⟨trivial, fun isSent => ih _⟩

/-- A request does the same on servers that are alike. -/
theorem handleRequest_coupled
    (hides : engine.HidesValues) (persist : Option Bool) (client : Client engine n)
    (cmd : Command) (args : List Bytes) :
    Coupled Eq (handleRequest engine persist client cmd args)
      (handleRequest engine persist client cmd args) := by
  unfold handleRequest
  split
  · apply coupled_of_issues
    refine Program.Issues.bind ?_ fun _ => trivial
    unfold handleSubscribe
    split
    · trivial
    · exact ⟨trivial, fun _ => trivial⟩
  · split
    · apply coupled_of_issues
      refine Program.Issues.bind ?_ fun _ => trivial
      unfold handlePublish
      split
      · exact ⟨trivial, fun _ => (deliver_issues _ _ _).bind fun _ => trivial⟩
      · trivial
    · split
      · exact .pure rfl
      · split
        · split <;> exact .pure rfl
        · split
          · split <;> exact .pure rfl
          · split
            · split
              · refine (runQueued_coupled hides persist _ _).bind ?_
                rintro outcome _ rfl
                exact .pure rfl
              · exact .pure rfl
            · split
              · rename_i isFast
                exact coupled_of_issues ((fastPath_issues isFast).bind fun _ => trivial)
              · refine (runCommand_coupled hides persist _ _ _).bind ?_
                rintro outcome _ rfl
                exact .pure rfl

theorem serve_coupled
    (hides : engine.HidesValues) (persist : Option Bool) (client : Client engine n)
    (requests : List (Command × List Bytes)) :
    Coupled Eq (serve engine persist client requests)
      (serve engine persist client requests) := by
  induction requests generalizing client with
  | nil => exact .pure rfl
  | cons request requests ih =>
      refine (handleRequest_coupled hides persist client _ _).bind ?_
      rintro ⟨reply, client⟩ _ rfl
      refine (ih client).bind ?_
      rintro outcome _ rfl
      exact .pure rfl

end Server

/-! ## Snapshots -/

namespace LibsqlPersist

theorem writesOf_plain (cell : Cell) (value : Value) (exp : Option UInt64) :
    writesOf cell value.plain exp = writesOf cell value exp := by
  cases value <;> rfl

theorem itemsAt_alike {left right : Db} (alike : left.Alike right) (now : UInt64) :
    (itemsAt now left).map Item.plain = (itemsAt now right).map Item.plain := by
  rw [itemsAt_eq, itemsAt_eq, List.map_flatMap, List.map_flatMap]
  congr 1
  funext index
  exact ((alike.shards index).purge now).items

theorem writes_plain (db : Int) (items : List Item) :
    (items.map fun (key, value, exp) => ((db, key), writesOf (db, key) value exp)) =
      (items.map Item.plain).map fun item =>
        ((db, item.1), writesOf (db, item.1) item.2.1 item.2.2) := by
  rw [List.map_map]
  apply List.map_congr_left
  rintro ⟨key, value, exp⟩ -
  exact congrArg (Prod.mk _) (writesOf_plain _ value exp).symm

theorem keys_plain (items : List Item) :
    items.map Prod.fst = (items.map Item.plain).map Prod.fst := by
  rw [List.map_map]
  rfl

theorem upserts_alike {left right : Dbs n} (alike : left.Alike right) (now : UInt64) :
    upserts now left = upserts now right := by
  have sameWrites : ∀ idx : Fin n,
      ((itemsAt now (left idx)).map fun (key, value, exp) =>
        (((idx.val : Int), key), writesOf ((idx.val : Int), key) value exp)) =
      (itemsAt now (right idx)).map fun (key, value, exp) =>
        (((idx.val : Int), key), writesOf ((idx.val : Int), key) value exp) := by
    intro idx
    exact (writes_plain _ _).trans
      ((congrArg _ (itemsAt_alike (alike idx) now)).trans (writes_plain _ _).symm)
  exact congrArg (List.flatMap · (List.finRange n)) (funext sameWrites)

theorem deleteAllStale_alike
    {left right : Dbs n} (alike : left.Alike right) (now : UInt64)
    (indices : List (Fin n)) :
    deleteAllStale now left indices = deleteAllStale now right indices := by
  induction indices with
  | nil => rfl
  | cons idx indices ih =>
      have sameKeys : (itemsAt now (left idx)).map Prod.fst =
          (itemsAt now (right idx)).map Prod.fst :=
        (keys_plain _).trans
          ((congrArg _ (itemsAt_alike (alike idx) now)).trans (keys_plain _).symm)
      rw [deleteAllStale, deleteAllStale, sameKeys, ih]

/-- A snapshot executes the same statements for databases that hold the same. -/
theorem snapshot_alike {left right : Dbs n} (alike : left.Alike right) (now : UInt64) :
    snapshot now left = snapshot now right := by
  unfold snapshot snapshotInner
  rw [upserts_alike alike, deleteAllStale_alike alike]

end LibsqlPersist

/-! ## Runs of connections -/

namespace Server

/-- The next call of the connection ends the process. -/
def Ends (moment : Moment) (state : ServerState n) : Session n α → Prop
  | .pure _ => False
  | .call call _ => call.fails moment state = true

/-- What is seen of connections and a server: the replies, whether the process
ends, the messages, the log, the scripts, and the statements of a snapshot of the
databases and of those last saved. -/
structure SameSeen (final final' : ι → Session n α) (last last' : ServerState n) :
    Prop where
  replies : ∀ client outcome,
    final client = .pure outcome ↔ final' client = .pure outcome
  ends : ∀ client moment,
    Ends moment last (final client) ↔ Ends moment last' (final' client)
  queues : last.queues = last'.queues
  log : last.log = last'.log
  scripts : last.scripts = last'.scripts
  rows : ∀ now, LibsqlPersist.snapshot now last.dbs = LibsqlPersist.snapshot now last'.dbs
  savedRows : ∀ now, last.saved.map (LibsqlPersist.snapshot now) =
    last'.saved.map (LibsqlPersist.snapshot now)

/-- Every run from the first server is matched by a run from the second, with
calls of the same connections at the same times, in which the same is seen. -/
def Matches [DecidableEq ι] (threads : ι → Session n α) (state state' : ServerState n) :
    Prop :=
  ∀ (events : List (Event (ServerCall.signature n) ι Moment)) (final : ι → Session n α)
    (last : ServerState n),
    Interleaving ServerCall.exec threads state events final last →
    ∃ events' final' last',
      Interleaving ServerCall.exec threads state' events' final' last' ∧
      events'.map (fun event => (event.thread, event.time)) =
        events.map (fun event => (event.thread, event.time)) ∧
      SameSeen final final' last last'

theorem sameSeen_of_alike
    {final final' : ι → Session n α} {last last' : ServerState n}
    (coupled : ∀ client, Coupled Eq (final client) (final' client))
    (alike : last.Alike last') : SameSeen final final' last last' where
  replies := by
    intro client outcome
    have isCoupled := coupled client
    generalize final client = left at isCoupled ⊢
    generalize final' client = right at isCoupled ⊢
    cases isCoupled with
    | pure same => rw [same]
    | call _ _ => constructor <;> intro isPure <;> cases isPure
  ends := by
    intro client moment
    have isCoupled := coupled client
    generalize final client = left at isCoupled ⊢
    generalize final' client = right at isCoupled ⊢
    cases isCoupled with
    | pure same => exact Iff.rfl
    | call paired _ =>
        unfold Ends
        dsimp only
        rw [alike.fails moment paired]
  queues := alike.queues
  log := alike.log
  scripts := alike.scripts
  rows := LibsqlPersist.snapshot_alike alike.dbs
  savedRows := by
    intro now
    have saved := alike.saved
    generalize last.saved = first at saved ⊢
    generalize last'.saved = second at saved ⊢
    cases saved with
    | none => rfl
    | some same => exact congrArg some (LibsqlPersist.snapshot_alike same now)

theorem matches_of_alike [DecidableEq ι]
    {engine : ScriptEngine} (hides : engine.HidesValues) (persist : Option Bool)
    (clients : ι → Client engine n) (requests : ι → List (Command × List Bytes))
    {state state' : ServerState n} (alike : state.Alike state') :
    Matches (fun client => serve engine persist (clients client) (requests client))
      state state' := by
  intro events final last run
  obtain ⟨events', final', last', run', coupled, lastAlike, sameEvents⟩ :=
    run.coupled ServerState.Alike.exec
      (fun client => serve_coupled hides persist (clients client) (requests client))
      alike
  exact ⟨events', final', last', run', sameEvents, sameSeen_of_alike coupled lastAlike⟩

end Server

/-- Store the decimal text of a number under a key. -/
def ServerState.storeText
    (state : ServerState n) (idx : Fin n) (key : Bytes) (number : Int64)
    (expiresAt : Option UInt64) : ServerState n :=
  { state with
    dbs := Function.update state.dbs idx
      ((state.dbs idx).put key (some ⟨.string (writeI64Bytes number), expiresAt⟩)) }

theorem ServerState.alike_storeText
    {state : ServerState n} {idx : Fin n} {key : Bytes} {number : Int64}
    {expiresAt : Option UInt64}
    (stored : (state.dbs idx).lookup key = some ⟨.int number, expiresAt⟩) :
    state.Alike (state.storeText idx key number expiresAt) where
  dbs := by
    intro other probe
    change _ = ((Function.update state.dbs idx _ other).lookup probe).map Entry.plain
    by_cases same : other = idx
    · subst same
      rw [Function.update_self, Db.lookup_put]
      split
      · rename_i isKey
        rw [← isKey, stored]
        rfl
      · rfl
    · rw [Function.update_of_ne same]
  scripts := rfl
  log := rfl
  saved := by
    change Option.Rel Dbs.Alike state.saved state.saved
    cases state.saved with
    | none => exact .none
    | some saved => exact .some fun idx => Db.Alike.refl _
  channels := rfl
  queues := rfl

/-- A stored integer and its decimal text are never told apart: whatever
connections do and in whatever order they make their calls, each server matches
the other.  The decimal text is read back as the integer. -/
theorem representation_indistinguishable [DecidableEq ι]
    (engine : ScriptEngine) (hides : engine.HidesValues) (persist : Option Bool)
    (clients : ι → Client engine n) (requests : ι → List (Command × List Bytes))
    (state : ServerState n) (idx : Fin n) (key : Bytes) (number : Int64)
    (expiresAt : Option UInt64)
    (stored : (state.dbs idx).lookup key = some ⟨.int number, expiresAt⟩) :
    Server.Matches
        (fun client => Server.serve engine persist (clients client) (requests client))
        state (state.storeText idx key number expiresAt) ∧
      Server.Matches
        (fun client => Server.serve engine persist (clients client) (requests client))
        (state.storeText idx key number expiresAt) state ∧
      Store.parseI64Bytes (writeI64Bytes number) = some number := by
  have alike := ServerState.alike_storeText stored
  exact ⟨Server.matches_of_alike hides persist clients requests alike,
    Server.matches_of_alike hides persist clients requests alike.symm,
    Store.parseI64Bytes_writeI64Bytes number⟩

/-- A server that holds the smallest integer. -/
def smallestStored : ServerState 1 :=
  { ServerState.fresh with
    dbs := fun _ =>
      Db.empty.put (asBytes "k") (some ⟨.int (-9223372036854775808), none⟩) }

theorem representation_indistinguishable_smallest :
    Server.Matches
        (fun _ : Unit => Server.serve idleEngine none Client.fresh
          [(.incr, [asBytes "k"]), (.get, [asBytes "k"])])
        smallestStored
        (smallestStored.storeText onlyDb (asBytes "k") (-9223372036854775808) none) ∧
      Server.Matches
        (fun _ : Unit => Server.serve idleEngine none Client.fresh
          [(.incr, [asBytes "k"]), (.get, [asBytes "k"])])
        (smallestStored.storeText onlyDb (asBytes "k") (-9223372036854775808) none)
        smallestStored ∧
      Store.parseI64Bytes (writeI64Bytes (-9223372036854775808)) =
        some (-9223372036854775808) :=
  representation_indistinguishable idleEngine (fun _ _ _ _ => trivial) none
    (fun _ => Client.fresh) (fun _ => [(.incr, [asBytes "k"]), (.get, [asBytes "k"])])
    smallestStored onlyDb (asBytes "k") (-9223372036854775808) none
    ((Db.lookup_put _ _ _ _).trans (if_pos rfl))

end Cache
end MuonJs
