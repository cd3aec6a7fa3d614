import MuonJs.Cache.Expiry

/-!
# What a call leaves unchanged

The live contents of a database are what `Db.purge` leaves.  A method that only
reads keeps them, and so does a method that fails, with one exception among the
calls: `set_move` takes the member out of the source before it looks at the
destination's type.
-/

namespace MuonJs
namespace Cache

/-- A failure. -/
def Fallible.isError : Fallible α → Bool
  | .ok _ => false
  | .error () => true

theorem Fallible.ok_ne_error {value : α} :
    (.ok value : Fallible α) ≠ .error () := by
  intro same
  cases same

theorem Fallible.forall_ok {holds : Fallible α → Prop} (each : ∀ value, holds (.ok value)) :
    ∀ result, result.isError = false → holds result
  | .ok value, _ => each value

theorem Fallible.forall_error {holds : Fallible α → Prop} (fails : holds (.error ())) :
    ∀ result, result.isError = true → holds result
  | .error (), _ => fails

theorem Fallible.isError_iff {result : Fallible α} :
    result.isError = true ↔ result = .error () := by
  cases result with
  | ok value =>
      rw [isError, Bool.false_eq_true, false_iff]
      exact Fallible.ok_ne_error
  | error reason => exact ⟨fun _ => rfl, fun _ => rfl⟩

namespace Shard

/-- The live part of what a method leaves under its key. -/
theorem live_keeps
    (now : UInt64) (method : EntryFn α) (entry : Option Entry)
    (keeps : ∀ stored, (method stored).2 = stored) :
    (live now method entry).2.filter (Entry.live now) =
      entry.filter (Entry.live now) := by
  rw [live, keeps, Option.filter_filter]
  simp

theorem readAs_keeps
    (kind : Value → Option β) (found : β → α) (missing : α)
    (now : UInt64) (entry : Option Entry) :
    (readAs kind found missing now entry).2.filter (Entry.live now) =
      entry.filter (Entry.live now) := by
  apply live_keeps
  intro stored
  cases stored with
  | none => rfl
  | some stored => dsimp only; split <;> rfl

/-- A method that changes a value in place and fails keeps the live entry under
its key, when its change keeps the content where it fails. -/
theorem updateAs_failed
    {kind : Value → Option β} {wrap : β → Value}
    {change : β → Fallible α × Option β}
    {missing : Fallible α × Option Value}
    {now : UInt64} {entry : Option Entry}
    (keeps : ∀ value content, kind value = some content →
      (change content).1 = .error () → (change content).2.map wrap = some value)
    (keepsMissing : missing.1 = .error () → missing.2 = none)
    (fails : (updateAs kind wrap change missing now entry).1 = .error ()) :
    (updateAs kind wrap change missing now entry).2.filter (Entry.live now) =
      entry.filter (Entry.live now) := by
  rw [updateAs, live] at fails ⊢
  cases found : entry.filter (Entry.live now) with
  | none =>
      rw [found] at fails
      dsimp only at fails ⊢
      rw [keepsMissing fails]
      rfl
  | some stored =>
      have isLive : stored.live now = true := by
        rw [Option.filter_eq_some_iff] at found
        exact found.2
      rw [found] at fails
      dsimp only at fails ⊢
      cases content : kind stored.value with
      | none => simp [Option.filter, isLive]
      | some content =>
          rw [content] at fails
          dsimp only at fails ⊢
          have kept := keeps stored.value _ (by assumption) fails
          rw [Option.map_eq_some_iff] at kept
          obtain ⟨new, newContent, wrapped⟩ := kept
          rw [newContent, Option.map_some, wrapped]
          simp [Option.filter, Entry.withValue, isLive]

/-- A method whose change never fails keeps the live entry when it fails. -/
theorem updateAs_failed_of_succeeds
    {kind : Value → Option β} {wrap : β → Value}
    {change : β → Fallible α × Option β}
    {missing : Fallible α × Option Value}
    {now : UInt64} {entry : Option Entry}
    (succeeds : ∀ content, (change content).1 ≠ .error ())
    (succeedsMissing : missing.1 ≠ .error ())
    (fails : (updateAs kind wrap change missing now entry).1 = .error ()) :
    (updateAs kind wrap change missing now entry).2.filter (Entry.live now) =
      entry.filter (Entry.live now) :=
  updateAs_failed
    (fun _ content _ changeFails => absurd changeFails (succeeds content))
    (fun missingFails => absurd missingFails succeedsMissing) fails

/-- The methods that set a hash field keep the live entry when they fail. -/
theorem hashSetWith_failed
    {insert : HashStore → Fallible Bool × HashStore} {fresh : HashStore}
    {now : UInt64} {entry : Option Entry}
    (succeeds : ∀ fields, (insert fields).1 ≠ .error ())
    (fails : (hashSetWith insert fresh now entry).1 = .error ()) :
    (hashSetWith insert fresh now entry).2.filter (Entry.live now) =
      entry.filter (Entry.live now) := by
  cases entry with
  | none => cases fails
  | some stored =>
      unfold hashSetWith at fails ⊢
      dsimp only at fails ⊢
      split at fails
      · cases fails
      · rename_i isFresh
        rw [if_neg isFresh]
        cases content : stored.value.asHash with
        | none => rfl
        | some fields =>
            rw [content] at fails
            exact absurd fails (succeeds fields)

theorem incrBy_failed
    {delta : Int64} {now : UInt64} {entry : Option Entry}
    (fails : (incrBy delta now entry).1 = .error ()) :
    (incrBy delta now entry).2.filter (Entry.live now) =
      entry.filter (Entry.live now) := by
  unfold incrBy live at fails ⊢
  cases found : entry.filter (Entry.live now) with
  | none => rw [found] at fails; cases fails
  | some stored =>
      rw [found] at fails
      have isLive : stored.live now = true :=
        (Option.filter_eq_some_iff.mp found).2
      dsimp only at fails ⊢
      split at fails
      · cases fails
      · simp [Option.filter, isLive]
      · simp [Option.filter, isLive]

theorem listSet_failed
    {index : Int64} {value : Bytes} {now : UInt64} {entry : Option Entry}
    (fails : (listSet index value now entry).1 = .error ()) :
    (listSet index value now entry).2.filter (Entry.live now) =
      entry.filter (Entry.live now) := by
  refine updateAs_failed (fun stored items isList changeFails => ?_)
    (fun _ => rfl) fails
  cases stored with
  | list items' =>
      cases isList
      split at changeFails
      · rfl
      · cases changeFails
  | _ => cases isList

theorem hashIncrBy_failed
    {field : Bytes} {delta : Int64} {now : UInt64} {entry : Option Entry}
    (fails : (hashIncrBy field delta now entry).1 = .error ()) :
    (hashIncrBy field delta now entry).2.filter (Entry.live now) =
      entry.filter (Entry.live now) := by
  refine updateAs_failed (fun stored fields isHash changeFails => ?_)
    nofun fails
  cases stored with
  | hash fields' =>
      cases isHash
      dsimp only at changeFails ⊢
      split at changeFails
      · cases changeFails
      · rfl
  | _ => cases isHash

theorem streamAdd_failed
    {id : String} {fields : List (Bytes × Bytes)}
    {now : UInt64} {entry : Option Entry}
    (fails : (streamAdd id fields now entry).1 = .error ()) :
    (streamAdd id fields now entry).2.filter (Entry.live now) =
      entry.filter (Entry.live now) := by
  unfold streamAdd at fails ⊢
  by_cases automatic : id = "*"
  · rw [if_pos automatic] at fails ⊢
    exact updateAs_failed_of_succeeds (fun _ => nofun) nofun fails
  · rw [if_neg automatic]
    exact live_keeps now _ entry fun _ => rfl

end Shard

namespace EntryOp

/-- The single-key methods that only read. -/
def reads : EntryOp → Bool
  | .keyExists | .ttlMs | .valueType | .getString | .listRange .. | .listLen
  | .listIndex _ | .hashGet _ | .hashLen | .hashExists _ | .hashGetall
  | .setMembers | .setIsMember _ | .setCard | .zcard | .zrange ..
  | .streamRange .. | .streamLen | .streamRevRange .. => true
  | _ => false

/-- A method that only reads keeps the live entry under its key. -/
theorem apply_reads
    (op : EntryOp) (isRead : op.reads = true)
    (now : UInt64) (entry : Option Entry) :
    (op.apply now entry).2.filter (Entry.live now) =
      entry.filter (Entry.live now) := by
  cases op with
  | keyExists => exact Shard.live_keeps now _ entry fun _ => rfl
  | valueType => exact Shard.live_keeps now _ entry fun _ => rfl
  | ttlMs =>
      cases entry with
      | none => rfl
      | some stored =>
          cases expiry : stored.expiresAt with
          | none => simp [apply, Shard.ttlMs, expiry]
          | some ts =>
              by_cases passed : ts ≤ now
              · simp [apply, Shard.ttlMs, Option.filter, Entry.live,
                  Entry.expired, expiry, passed]
              · simp [apply, Shard.ttlMs, expiry, passed]
  | getString | listRange | listLen | listIndex | hashGet | hashLen | hashExists
  | hashGetall | setMembers | setIsMember | setCard | zcard | zrange | streamRange
  | streamLen | streamRevRange => exact Shard.readAs_keeps _ _ _ now entry
  | _ => cases isRead

/-- The result reports an error. -/
def failed : (op : EntryOp) → op.Result → Bool
  | .setNx _, result | .hashSet .., result | .hashSetRef .., result
  | .hashSetBytes .., result | .hashExists _, result | .hashSetNx .., result
  | .setIsMember _, result | .zadd .., result | .append _, result
  | .incrBy _, result | .listPush .., result | .listLen, result
  | .listInsert .., result | .listRem .., result | .listPushX .., result
  | .hashDel _, result | .hashLen, result | .hashIncrBy .., result
  | .setAdd _, result | .setAddSingleBytes _, result | .setRemove _, result
  | .setCard, result | .zrem _, result | .zcard, result | .streamLen, result
  | .streamDel _, result | .getString, result | .listPop _, result
  | .listIndex _, result | .hashGet _, result | .listRange .., result
  | .setMembers, result | .zrange .., result | .listSet .., result
  | .listTrim .., result | .hashGetall, result | .streamAdd .., result
  | .streamRange .., result | .streamRevRange .., result => result.isError
  | _, _ => false

/-- A method that fails keeps the live entry under its key. -/
theorem apply_failed
    (op : EntryOp) (now : UInt64) (entry : Option Entry)
    (fails : op.failed (op.apply now entry).1 = true) :
    (op.apply now entry).2.filter (Entry.live now) =
      entry.filter (Entry.live now) := by
  cases isRead : op.reads with
  | true => exact op.apply_reads isRead now entry
  | false =>
      cases op with
      | setNx value =>
          have isError := Fallible.isError_iff.mp fails
          unfold apply Shard.setNx Shard.live at isError
          dsimp only at isError
          split at isError <;> cases isError
      | incrBy delta => exact Shard.incrBy_failed (Fallible.isError_iff.mp fails)
      | listSet index value =>
          exact Shard.listSet_failed (Fallible.isError_iff.mp fails)
      | hashIncrBy field delta =>
          exact Shard.hashIncrBy_failed (Fallible.isError_iff.mp fails)
      | hashSet field value =>
          exact Shard.hashSetWith_failed (fun _ => Fallible.ok_ne_error)
            (Fallible.isError_iff.mp fails)
      | hashSetBytes field value =>
          exact Shard.hashSetWith_failed (fun _ => Fallible.ok_ne_error)
            (Fallible.isError_iff.mp fails)
      | hashSetRef field value =>
          refine Shard.hashSetWith_failed (fun fields => ?_)
            (Fallible.isError_iff.mp fails)
          split <;> exact Fallible.ok_ne_error
      | streamAdd id fields =>
          exact Shard.streamAdd_failed (Fallible.isError_iff.mp fails)
      | append | listPush | listRem | listPushX | listTrim | hashDel | setAdd
      | setRemove | zadd | zrem | streamDel =>
          exact Shard.updateAs_failed_of_succeeds (fun _ => Fallible.ok_ne_error)
            Fallible.ok_ne_error
            (Fallible.isError_iff.mp fails)
      | listPop | listInsert | hashSetNx | setAddSingleBytes =>
          refine Shard.updateAs_failed_of_succeeds (fun content => ?_)
            Fallible.ok_ne_error
            (Fallible.isError_iff.mp fails)
          split <;> exact Fallible.ok_ne_error
      | set value expireAtMs => cases fails
      | remove => cases fails
      | setExpireMs ttl => cases fails
      | persist => cases fails
      | setString value expireAtMs => cases fails
      | setStringRef value expireAtMs => cases fails
      | _ => cases isRead

end EntryOp

namespace Db

/-- A method that keeps the live entry under its key keeps all live entries. -/
theorem purge_access
    {db : Db} {now : UInt64} {key : Bytes} {method : EntryFn α}
    (keeps : (method (db.lookup key)).2.filter (Entry.live now) =
      (db.lookup key).filter (Entry.live now)) :
    (db.access key method).2.purge now = db.purge now := by
  apply ext_lookup
  intro probe
  rw [lookup_purge, lookup_purge, lookup_access]
  by_cases own : key = probe
  · rw [if_pos own, keeps, own]
  · rw [if_neg own]

end Db

namespace Call

/-- The calls that only read. -/
def reads : Call → Bool
  | .entry _ op => op.reads
  | .setMove .. | .shard _ .flush => false
  | .shard .. => true

/-- A call that only reads keeps the live entries. -/
theorem purge_exec_reads
    {call : Call} (isRead : call.reads = true)
    {now later : UInt64} (after : now ≤ later) (db : Db) :
    (call.exec now db).2.purge later = db.purge later := by
  apply Db.purge_eq_later _ after
  cases call with
  | entry key op => exact Db.purge_access (op.apply_reads isRead now _)
  | setMove source dest member => cases isRead
  | shard index op =>
      cases op with
      | flush => cases isRead
      | _ => exact purge_purgeShard db now index

/-- A single-key call that fails keeps the live entries. -/
theorem purge_exec_failed
    {key : Bytes} {op : EntryOp} {now later : UInt64} {db : Db}
    (fails : op.failed ((Call.entry key op).exec now db).1 = true)
    (after : now ≤ later) :
    ((Call.entry key op).exec now db).2.purge later = db.purge later :=
  Db.purge_eq_later (Db.purge_access (op.apply_failed now _ fails)) after

end Call
end Cache
end MuonJs
