import MuonJs.Cache.Call

/-!
# Lazy expiry

An entry whose timestamp has passed stays stored until some method drops it.
The reference store drops every expired entry before each call.  The two give
the same results and keep the same live entries exactly as long as `remove` and
`set_expire_ms` meet no expired entry under their key and `flush` meets none in
its shard: these three are the methods that do not look at the expiry.
-/

namespace MuonJs
namespace Cache

/-! ## Entries -/

namespace Shard

@[simp] theorem live_filter
    (now : UInt64) (method : EntryFn α) (entry : Option Entry) :
    live now method (entry.filter (Entry.live now)) = live now method entry := by
  simp [live, Option.filter_filter]

@[simp] theorem readAs_filter
    (kind : Value → Option β) (found : β → α) (missing : α)
    (now : UInt64) (entry : Option Entry) :
    readAs kind found missing now (entry.filter (Entry.live now)) =
      readAs kind found missing now entry :=
  live_filter now _ entry

@[simp] theorem updateAs_filter
    (kind : Value → Option β) (wrap : β → Value)
    (change : β → Fallible α × Option β)
    (missing : Fallible α × Option Value)
    (now : UInt64) (entry : Option Entry) :
    updateAs kind wrap change missing now (entry.filter (Entry.live now)) =
      updateAs kind wrap change missing now entry :=
  live_filter now _ entry

/-- An inline expiry check treats an expired entry as a missing one. -/
theorem hashSetWith_filter
    (insert : HashStore → Fallible Bool × HashStore) (fresh : HashStore)
    (now : UInt64) (entry : Option Entry) :
    hashSetWith insert fresh now (entry.filter (Entry.live now)) =
      hashSetWith insert fresh now entry := by
  cases entry with
  | none => rfl
  | some stored =>
      cases expired : stored.expired now with
      | true => simp [hashSetWith, Option.filter, Entry.live, expired]
      | false => simp [hashSetWith, Option.filter, Entry.live, expired]

theorem ttlMs_filter (now : UInt64) (entry : Option Entry) :
    ttlMs now (entry.filter (Entry.live now)) = ttlMs now entry := by
  cases entry with
  | none => rfl
  | some stored =>
      cases expiry : stored.expiresAt with
      | none => simp [Option.filter, Entry.live, Entry.expired, expiry]
      | some ts =>
          by_cases passed : ts ≤ now
          · simp [ttlMs, Option.filter, Entry.live, Entry.expired, expiry, passed]
          · simp [Option.filter, Entry.live, Entry.expired, expiry, passed]

theorem setStringRef_filter
    (value : Bytes) (expireAtMs : Option UInt64)
    (now : UInt64) (entry : Option Entry) :
    setStringRef value expireAtMs (entry.filter (Entry.live now)) =
      setStringRef value expireAtMs entry := by
  cases entry with
  | none => rfl
  | some stored =>
      cases expired : stored.expired now with
      | true => simp [setStringRef, Option.filter, Entry.live, expired]
      | false => simp [Option.filter, Entry.live, expired]

end Shard

namespace EntryOp

/-- The single-key methods that do not look at the expiry of the entry they
find: `remove` and `set_expire_ms`. -/
def ignoresExpiry : EntryOp → Bool
  | .remove | .setExpireMs _ => true
  | _ => false

/-- Every other method treats an expired entry as a missing one. -/
theorem apply_filter
    (op : EntryOp) (checks : op.ignoresExpiry = false)
    (now : UInt64) (entry : Option Entry) :
    op.apply now (entry.filter (Entry.live now)) = op.apply now entry := by
  cases op with
  | remove => cases checks
  | setExpireMs ttl => cases checks
  | set value expireAtMs => rfl
  | setString value expireAtMs => rfl
  | setStringRef value expireAtMs =>
      exact Shard.setStringRef_filter value expireAtMs now entry
  | ttlMs => exact Shard.ttlMs_filter now entry
  | hashSet | hashSetRef | hashSetBytes => exact Shard.hashSetWith_filter _ _ now entry
  | streamAdd id fields =>
      by_cases automatic : id = "*"
      · simp [apply, Shard.streamAdd, automatic]
      · simp [apply, Shard.streamAdd, automatic]
  | keyExists => simp [apply, Shard.keyExists]
  | persist => simp [apply, Shard.persist]
  | valueType => simp [apply, Shard.valueType]
  | getString => simp [apply, Shard.getString]
  | setNx value => simp [apply, Shard.setNx]
  | append value => simp [apply, Shard.append]
  | incrBy delta => simp [apply, Shard.incrBy]
  | listPush values left => simp [apply, Shard.listPush]
  | listPop left => simp [apply, Shard.listPop]
  | listRange start stop => simp [apply, Shard.listRange]
  | listLen => simp [apply, Shard.listLen]
  | listIndex index => simp [apply, Shard.listIndex]
  | listSet index value => simp [apply, Shard.listSet]
  | listInsert before pivot value => simp [apply, Shard.listInsert]
  | listRem count value => simp [apply, Shard.listRem]
  | listPushX values left => simp [apply, Shard.listPushX]
  | listTrim start stop => simp [apply, Shard.listTrim]
  | hashGet field => simp [apply, Shard.hashGet]
  | hashDel fields => simp [apply, Shard.hashDel]
  | hashLen => simp [apply, Shard.hashLen]
  | hashExists field => simp [apply, Shard.hashExists]
  | hashGetall => simp [apply, Shard.hashGetall]
  | hashIncrBy field delta => simp [apply, Shard.hashIncrBy]
  | hashSetNx field value => simp [apply, Shard.hashSetNx]
  | setAdd members => simp [apply, Shard.setAdd]
  | setAddSingleBytes member => simp [apply, Shard.setAddSingleBytes]
  | setRemove members => simp [apply, Shard.setRemove]
  | setMembers => simp [apply, Shard.setMembers]
  | setIsMember member => simp [apply, Shard.setIsMember]
  | setCard => simp [apply, Shard.setCard]
  | zadd score member => simp [apply, Shard.zadd]
  | zrem members => simp [apply, Shard.zrem]
  | zcard => simp [apply, Shard.zcard]
  | zrange start stop => simp [apply, Shard.zrange]
  | streamRange start stop => simp [apply, Shard.streamRange]
  | streamLen => simp [apply, Shard.streamLen]
  | streamRevRange start stop => simp [apply, Shard.streamRevRange]
  | streamDel ids => simp [apply, Shard.streamDel]

end EntryOp

/-! ## Databases with the same live entries -/

namespace Db

@[simp] theorem purge_purge (db : Db) (now : UInt64) :
    (db.purge now).purge now = db.purge now := by
  apply ext_lookup
  intro key
  simp [Option.filter_filter]

/-- What is live later was live before. -/
theorem live_of_later
    {now later : UInt64} (after : now ≤ later) (entry : Entry)
    (isLive : entry.live later = true) :
    entry.live now = true := by
  unfold Entry.live at isLive ⊢
  rw [Bool.not_eq_true'] at isLive ⊢
  rw [← Bool.not_eq_true] at isLive ⊢
  exact fun expired => isLive (Entry.expired_mono expired after)

theorem purge_purge_later
    (db : Db) {now later : UInt64} (after : now ≤ later) :
    (db.purge now).purge later = db.purge later := by
  apply ext_lookup
  intro key
  rw [lookup_purge, lookup_purge, lookup_purge, Option.filter_filter]
  congr 1
  funext entry
  cases isLive : entry.live later with
  | false => simp
  | true => simp [live_of_later after entry isLive]

/-- Agreement on the live entries persists as the clock goes on. -/
theorem purge_eq_later
    {left right : Db} {now later : UInt64}
    (same : left.purge now = right.purge now)
    (after : now ≤ later) :
    left.purge later = right.purge later := by
  rw [← purge_purge_later left after, same, purge_purge_later right after]

theorem visible_eq_of_purge_eq
    {left right : Db} {now : UInt64}
    (same : left.purge now = right.purge now) (key : Bytes) :
    left.visible now key = right.visible now key := by
  rw [visible, visible, ← lookup_purge, ← lookup_purge, same]

/-- A method run at a key on which two databases agree keeps them agreeing on
the live entries, and on every key on which they agreed. -/
theorem access_agree
    {left right : Db} {now : UInt64} {key : Bytes}
    (same : left.purge now = right.purge now)
    (atKey : left.lookup key = right.lookup key)
    (method : EntryFn α) :
    (left.access key method).1 = (right.access key method).1 ∧
      (left.access key method).2.purge now =
        (right.access key method).2.purge now ∧
      ∀ probe, left.lookup probe = right.lookup probe →
        (left.access key method).2.lookup probe =
          (right.access key method).2.lookup probe := by
  have agree : ∀ probe, (left.lookup probe).filter (Entry.live now) =
      (right.lookup probe).filter (Entry.live now) := by
    intro probe
    rw [← lookup_purge, ← lookup_purge, same]
  refine ⟨by rw [access_result, access_result, atKey], ?_, ?_⟩
  · apply ext_lookup
    intro probe
    rw [lookup_purge, lookup_purge, lookup_access, lookup_access, atKey]
    by_cases own : key = probe
    · rw [if_pos own, if_pos own]
    · rw [if_neg own, if_neg own, agree]
  · intro probe atProbe
    rw [lookup_access, lookup_access, atKey, atProbe]

@[simp] theorem purge_dropExpired (db : Db) (now : UInt64) (key : Bytes) :
    (db.dropExpired now key).purge now = db.purge now := by
  apply ext_lookup
  intro probe
  rw [lookup_purge, lookup_purge, lookup_dropExpired]
  by_cases own : key = probe
  · simp [own, Option.filter_filter]
  · rw [if_neg own]

/-- Dropping expired entries first changes nothing for `set_move`. -/
theorem setMove_purge (db : Db) (now : UInt64) (source dest member : Bytes) :
    (db.setMove now source dest member).1 =
        ((db.purge now).setMove now source dest member).1 ∧
      (db.setMove now source dest member).2.purge now =
        ((db.purge now).setMove now source dest member).2.purge now := by
  let settled (db : Db) := (db.dropExpired now source).dropExpired now dest
  have lookups : ∀ probe, probe = source ∨ probe = dest →
      (settled db).lookup probe = (settled (db.purge now)).lookup probe := by
    intro probe named
    simp only [settled, lookup_dropExpired, lookup_purge]
    rcases named with rfl | rfl
    · by_cases same : dest = probe <;> simp [same, Option.filter_filter]
    · by_cases same : source = probe <;> simp [same, Option.filter_filter]
  have same : (settled db).purge now = (settled (db.purge now)).purge now := by
    simp [settled]
  obtain ⟨takeResult, takeSame, takeLookups⟩ :=
    access_agree same (lookups source (.inl rfl)) (Shard.takeMember member)
  obtain ⟨addResult, addSame, -⟩ :=
    access_agree takeSame (takeLookups dest (lookups dest (.inr rfl)))
      (Shard.addMember member)
  simp only [setMove]
  simp only [settled] at takeResult takeSame addResult addSame
  generalize ((db.dropExpired now source).dropExpired now dest).access source
    (Shard.takeMember member) = taken at *
  generalize (((db.purge now).dropExpired now source).dropExpired now
    dest).access source (Shard.takeMember member) = taken' at *
  obtain ⟨result, after⟩ := taken
  obtain ⟨result', after'⟩ := taken'
  obtain rfl : result = result' := takeResult
  match result with
  | .ok true => exact ⟨addResult, addSame⟩
  | .ok false => exact ⟨rfl, takeSame⟩
  | .error () => exact ⟨rfl, takeSame⟩

end Db

namespace Shard

@[simp] theorem purgeExpiredAll_purge (now : UInt64) (data : ByteMap Entry) :
    purgeExpiredAll now (purgeExpiredAll now data) =
      purgeExpiredAll now data := by
  apply Std.ExtTreeMap.ext_getElem?
  intro key
  simp [lookup_purgeExpiredAll, Option.filter_filter]

/-- Purging leaves as many entries as there were exactly when none is
expired. -/
theorem size_purgeExpiredAll
    (now : UInt64) (data : ByteMap Entry) :
    (purgeExpiredAll now data).size ≤ data.size ∧
      ((purgeExpiredAll now data).size = data.size ↔
        ∀ (key : Bytes) (entry : Entry),
          data[key]? = some entry → entry.expired now = false) := by
  refine ⟨Std.ExtTreeMap.size_filter_le_size, ?_⟩
  unfold purgeExpiredAll
  rw [Std.ExtTreeMap.size_filter_eq_size_iff]
  constructor
  · intro keeps key entry stored
    have present : key ∈ data := by
      rw [Std.ExtTreeMap.mem_iff_isSome_getElem?, stored]
      rfl
    have kept := keeps key present
    rw [Std.ExtTreeMap.getElem?_eq_some_getElem present] at stored
    cases stored
    simpa [Entry.live] using kept
  · intro fresh key present
    have notExpired := fresh key data[key]
      (Std.ExtTreeMap.getElem?_eq_some_getElem present)
    simpa [Entry.live] using notExpired

end Shard

/-! ## Calls -/

namespace Call

/-- A call of the reference store: the expired entries are dropped first. -/
def refExec (now : UInt64) (call : Call) (db : Db) : call.Result × Db :=
  call.exec now (db.purge now)

/-- The call's method looks at the expiry of what it finds. -/
def checksExpiry : Call → Prop
  | .entry _ op => op.ignoresExpiry = false
  | .setMove .. => True
  | .shard _ op => op ≠ .flush

/-- The call's method does not look at the expiry of what it finds, and what
it finds is expired. -/
def meetsExpired (now : UInt64) (call : Call) (db : Db) : Prop :=
  match call with
  | .entry key op =>
      op.ignoresExpiry = true ∧
        ∃ entry, db.lookup key = some entry ∧ entry.expired now = true
  | .setMove .. => False
  | .shard index op =>
      op = .flush ∧ ∃ (key : Bytes) (entry : Entry),
        (db.shards index)[key]? = some entry ∧ entry.expired now = true

theorem not_meetsExpired_of_checksExpiry
    (call : Call) (checks : call.checksExpiry) (now : UInt64) (db : Db) :
    ¬call.meetsExpired now db := by
  cases call with
  | entry key op =>
      rintro ⟨ignores, -⟩
      rw [checksExpiry, ignores] at checks
      cases checks
  | setMove source dest member => exact id
  | shard index op => exact fun meets => checks meets.1

/-- A single-key call that meets no expired entry does not notice whether the
expired entries were dropped. -/
theorem entry_purge
    (key : Bytes) (op : EntryOp) (now : UInt64) (db : Db)
    (safe : ¬(Call.entry key op).meetsExpired now db) :
    op.apply now ((db.lookup key).filter (Entry.live now)) =
      op.apply now (db.lookup key) := by
  cases ignores : op.ignoresExpiry with
  | false => exact op.apply_filter ignores now (db.lookup key)
  | true =>
      cases stored : db.lookup key with
      | none => rfl
      | some entry =>
          cases expired : entry.expired now with
          | true => exact absurd ⟨ignores, entry, stored, expired⟩ safe
          | false => simp [Option.filter, Entry.live, expired]

theorem purge_purgeShard (db : Db) (now : UInt64) (index : Fin numShards) :
    (db.purgeShard now index).purge now = db.purge now := by
  apply Db.ext_lookup
  intro key
  rw [Db.lookup_purge, Db.lookup_purge, Db.lookup_purgeShard]
  split
  · rw [Option.filter_filter]
    simp
  · rfl

/-- Flushing a shard leaves the same live entries whether or not the expired
entries were dropped first. -/
theorem flushShard_purge (db : Db) (now : UInt64) (index : Fin numShards) :
    (db.flushShard index).purge now =
      ((db.purge now).flushShard index).purge now := by
  apply Db.ext_lookup
  intro key
  rw [Db.lookup_purge, Db.lookup_purge, Db.lookup_flushShard,
    Db.lookup_flushShard]
  split
  · rfl
  · simp [Option.filter_filter]

/-- Step lemma: a call that meets no expired entry does on the lazy store what
it does on the reference store. -/
theorem exec_purge
    (call : Call) (now : UInt64) (db : Db)
    (safe : ¬call.meetsExpired now db) :
    (call.exec now db).1 = (call.refExec now db).1 ∧
      (call.exec now db).2.purge now = (call.refExec now db).2.purge now := by
  cases call with
  | entry key op =>
      have sameStep := entry_purge key op now db safe
      refine ⟨?_, Db.ext_lookup fun probe => ?_⟩
      · simp only [refExec, exec, Db.access_result, Db.lookup_purge, sameStep]
      · simp only [refExec, exec, Db.lookup_purge, Db.lookup_access, sameStep]
        by_cases own : key = probe
        · rw [if_pos own, if_pos own]
        · rw [if_neg own, if_neg own, Option.filter_filter]
          simp
  | setMove source dest member => exact Db.setMove_purge db now source dest member
  | shard index op =>
      by_cases isFlush : op = .flush
      · subst isFlush
        refine ⟨?_, flushShard_purge db now index⟩
        have fresh : ∀ (key : Bytes) (entry : Entry),
            (db.shards index)[key]? = some entry → entry.expired now = false := by
          intro key entry stored
          cases expired : entry.expired now with
          | false => rfl
          | true => exact absurd ⟨rfl, key, entry, stored, expired⟩ safe
        exact ((Shard.size_purgeExpiredAll now _).2.mpr fresh).symm
      · have sameShard : Shard.purgeExpiredAll now ((db.purge now).shards index) =
            Shard.purgeExpiredAll now (db.shards index) :=
          Shard.purgeExpiredAll_purge now _
        have samePurge : (db.purgeShard now index).purge now =
            ((db.purge now).purgeShard now index).purge now := by
          rw [purge_purgeShard, purge_purgeShard, Db.purge_purge]
        cases op with
        | flush => exact absurd rfl isFlush
        | purgeExpiredAll => exact ⟨rfl, samePurge⟩
        | snapshotItems =>
            exact ⟨congrArg Shard.items sameShard.symm, samePurge⟩
        | len => exact ⟨congrArg Std.ExtTreeMap.size sameShard.symm, samePurge⟩
        | keys => exact ⟨congrArg Std.ExtTreeMap.keys sameShard.symm, samePurge⟩
        | keysMatching pattern =>
            exact ⟨congrArg (Shard.matchingKeys pattern) sameShard.symm, samePurge⟩

end Call

/-! ## Runs -/

/-- Two stores after equally many calls hold the same live entries at every
time from the last clock reading on. -/
def AgreeFrom (clock : ℕ → UInt64) (lazyStore refStore : Db × ℕ) : Prop :=
  lazyStore.2 = refStore.2 ∧
    ∀ now, (∀ tick < lazyStore.2, clock tick ≤ now) →
      lazyStore.1.purge now = refStore.1.purge now

namespace Call

/-- The lazy store with a clock. -/
def lazyAt (clock : ℕ → UInt64) : Executor signature (Db × ℕ) :=
  Program.timed exec clock

/-- The reference store with a clock. -/
def refAt (clock : ℕ → UInt64) : Executor signature (Db × ℕ) :=
  Program.timed refExec clock

/-- The call meets an expired entry at the clock reading of its turn. -/
def meetsExpiredAt (clock : ℕ → UInt64) (call : Call) (store : Db × ℕ) : Prop :=
  call.meetsExpired (clock store.2) store.1

variable {clock : ℕ → UInt64}

/-- Agreement at the clock reading of a call gives agreement after it. -/
theorem agreeFrom_step
    {left right : Db × ℕ} (sameTick : left.2 = right.2)
    {call : Call}
    (samePurge : (call.exec (clock left.2) left.1).2.purge (clock left.2) =
      (call.refExec (clock right.2) right.1).2.purge (clock left.2)) :
    AgreeFrom clock (lazyAt clock call left).2
      (refAt clock call right).2 := by
  refine ⟨congrArg (· + 1) sameTick, fun now after => ?_⟩
  exact Db.purge_eq_later samePurge (after left.2 (Nat.lt_succ_self _))

/-- Agreeing stores agree at the next clock reading. -/
theorem agreeFrom_next
    (monotone : ∀ i j, i ≤ j → clock i ≤ clock j)
    {left right : Db × ℕ} (agree : AgreeFrom clock left right) :
    left.1.purge (clock left.2) = right.1.purge (clock left.2) :=
  agree.2 _ fun tick before => monotone tick left.2 before.le

/-- The lazy store simulates the reference store at every call that meets no
expired entry. -/
theorem exec_simulates
    (monotone : ∀ i j, i ≤ j → clock i ≤ clock j)
    (call : Call) (left right : Db × ℕ)
    (safe : ¬call.meetsExpiredAt clock left)
    (agree : AgreeFrom clock left right) :
    (lazyAt clock call left).1 =
        (refAt clock call right).1 ∧
      AgreeFrom clock (lazyAt clock call left).2
        (refAt clock call right).2 := by
  have sameRef : call.refExec (clock left.2) left.1 =
      call.refExec (clock right.2) right.1 := by
    rw [refExec, refExec, agreeFrom_next monotone agree, agree.1]
  obtain ⟨sameResult, samePurge⟩ := exec_purge call _ left.1 safe
  rw [sameRef] at sameResult samePurge
  exact ⟨sameResult, agreeFrom_step agree.1 samePurge⟩

end Call

namespace Db

/-- Every call of an all-shard method is of the one kind. -/
theorem eachShard_issues
    {allowed : Call → Prop} (op : ShardOp)
    (each : ∀ index, allowed (.shard index op)) :
    (eachShard op).Issues allowed := by
  unfold eachShard shardsInTurn
  apply Program.Issues.mapM
  intro index
  exact ⟨each index, fun _ => trivial⟩

theorem setUnionLoop_issues
    {allowed : Call → Prop}
    (each : ∀ key, allowed (.entry key .setMembers))
    (result : ByteSet) (keys : List Bytes) :
    (setUnionLoop result keys).Issues allowed := by
  induction keys generalizing result with
  | nil => trivial
  | cons key keys ih =>
      refine ⟨each key, fun members => ?_⟩
      cases members with
      | ok members => exact ih _
      | error _ => trivial

theorem inAll_issues
    {allowed : Call → Prop}
    (each : ∀ key member, allowed (.entry key (.setIsMember member)))
    (member : Bytes) (keys : List Bytes) :
    (inAll member keys).Issues allowed := by
  induction keys with
  | nil => trivial
  | cons key keys ih =>
      refine ⟨each key member, fun isMember => ?_⟩
      match isMember with
      | .ok true => exact ih
      | .ok false => trivial
      | .error () => trivial

theorem setInterLoop_issues
    {allowed : Call → Prop}
    (each : ∀ key member, allowed (.entry key (.setIsMember member)))
    (others members : List Bytes) :
    (setInterLoop others members).Issues allowed := by
  induction members with
  | nil => trivial
  | cons member members ih =>
      refine (inAll_issues each member others).bind fun isCommon => ?_
      match isCommon with
      | .error () => trivial
      | .ok isCommon =>
          refine ih.bind fun rest => ?_
          match rest with
          | .error () => trivial
          | .ok rest => trivial

end Db

namespace DbOp

/-- The methods of `Db` made of calls that look at the expiry. -/
theorem program_checksExpiry
    (op : DbOp)
    (checks : match op with
      | .entry _ op => op.ignoresExpiry = false
      | .flush => False
      | _ => True) :
    op.program.Issues Call.checksExpiry := by
  cases op with
  | entry key op => exact ⟨checks, fun _ => trivial⟩
  | setMove source dest member => exact ⟨trivial, fun _ => trivial⟩
  | setUnion keys =>
      exact (Db.setUnionLoop_issues (fun _ => rfl) ∅ keys).bind fun _ => trivial
  | setInter keys =>
      cases keys with
      | nil => trivial
      | cons first others =>
          refine ⟨rfl, fun members => ?_⟩
          cases members with
          | ok members => exact Db.setInterLoop_issues (fun _ _ => rfl) others members
          | error _ => trivial
  | purgeExpiredAll | snapshotItems | keysMatching =>
      exact (Db.eachShard_issues _ fun _ => nofun).bind fun _ => trivial
  | len | keys => exact (Db.eachShard_issues _ fun _ => nofun).bind fun _ => trivial
  | flush => exact checks.elim

end DbOp

/-- The results and the live entries left by the methods are those of the
reference store, at every time from the last clock reading on. -/
def Transparent (clock : ℕ → UInt64) (db : Db) (ops : List DbOp) : Prop :=
  let lazyRun := (DbOp.runAll ops).run (Call.lazyAt clock) (db, 0)
  let refRun := (DbOp.runAll ops).run (Call.refAt clock) (db, 0)
  lazyRun.1 = refRun.1 ∧
    ∀ now, (∀ tick < lazyRun.2.2, clock tick ≤ now) →
      ∀ key, lazyRun.2.1.visible now key = refRun.2.1.visible now key

/-- No call of the run meets an expired entry without looking at its expiry. -/
def MeetsNoExpired (clock : ℕ → UInt64) (program : Db.Method α)
    (store : Db × ℕ) : Prop :=
  program.Along (Call.lazyAt clock)
    (fun call store => ¬call.meetsExpiredAt clock store) store

section Runs

variable {clock : ℕ → UInt64}

/-- Equal sums of terms that are at most each other have equal terms. -/
theorem eq_of_add_eq {small large small' large' : ℕ}
    (atMost : small ≤ large) (atMost' : small' ≤ large')
    (sameSum : large + large' = small + small') :
    small = large ∧ large' = small' := by
  omega

/-- Flushing shard after shard counts at least the live entries, and exactly
those when no shard holds an expired one. -/
theorem flush_counts
    (monotone : ∀ i j, i ≤ j → clock i ≤ clock j)
    (indices : List (Fin numShards))
    {left right : Db × ℕ} (agree : AgreeFrom clock left right) :
    ((Db.shardsInTurn .flush indices).run (Call.refAt clock) right).1.sum ≤
        ((Db.shardsInTurn .flush indices).run (Call.lazyAt clock) left).1.sum ∧
      (((Db.shardsInTurn .flush indices).run (Call.lazyAt clock) left).1.sum =
          ((Db.shardsInTurn .flush indices).run (Call.refAt clock) right).1.sum →
        MeetsNoExpired clock (Db.shardsInTurn .flush indices) left) := by
  induction indices generalizing left right with
  | nil => exact ⟨le_rfl, fun _ => trivial⟩
  | cons index indices ih =>
      have samePurge := Call.agreeFrom_next monotone agree
      have afterFlush : AgreeFrom clock
          (Call.lazyAt clock (.shard index .flush) left).2
          (Call.refAt clock (.shard index .flush) right).2 := by
        apply Call.agreeFrom_step agree.1
        simp only [Call.exec, Call.refExec, ShardOp.effect]
        rw [← agree.1, Call.flushShard_purge, samePurge]
      have refCount : (Call.refAt clock (.shard index .flush) right).1 =
          (Shard.purgeExpiredAll (clock left.2) (left.1.shards index)).size := by
        change ((right.1.purge (clock right.2)).shards index).size =
          ((left.1.purge (clock left.2)).shards index).size
        rw [samePurge, agree.1]
      have lazyCount : (Call.lazyAt clock (.shard index .flush) left).1 =
          (left.1.shards index).size := rfl
      obtain ⟨atMost, sizes⟩ := Shard.size_purgeExpiredAll (clock left.2)
        (left.1.shards index)
      obtain ⟨restAtMost, restMeets⟩ := ih afterFlush
      rw [Db.shardsInTurn_cons]
      simp only [Program.run_call, Program.run_bind, Program.run_pure,
        List.sum_cons, MeetsNoExpired, Program.along_call, Program.along_bind,
        Program.along_pure, and_true]
      rw [refCount, lazyCount]
      refine ⟨Nat.add_le_add atMost restAtMost, fun sameSum => ?_⟩
      obtain ⟨sameSize, sameRest⟩ := eq_of_add_eq atMost restAtMost sameSum
      refine ⟨?_, restMeets sameRest⟩
      rintro ⟨-, key, entry, stored, expired⟩
      have fresh := sizes.mp sameSize key entry stored
      rw [fresh] at expired
      cases expired

/-- A method that returns what it returns on the reference store met no
expired entry. -/
theorem program_meetsNoExpired
    (monotone : ∀ i j, i ≤ j → clock i ≤ clock j)
    (op : DbOp)
    {left right : Db × ℕ} (agree : AgreeFrom clock left right)
    (sameResult : (op.program.run (Call.lazyAt clock) left).1 =
      (op.program.run (Call.refAt clock) right).1) :
    MeetsNoExpired clock op.program left := by
  have checked (checks : op.program.Issues Call.checksExpiry) :
      MeetsNoExpired clock op.program left :=
    checks.along (fun call _ checks =>
      Call.not_meetsExpired_of_checksExpiry call checks _ _) left
  cases op with
  | flush =>
      have counts := flush_counts monotone (List.finRange numShards) agree
      have meets := counts.2 (by
        simpa [DbOp.program, Db.flush, Db.eachShard] using sameResult)
      exact (Program.along_bind _ _ _ _ _).mpr ⟨meets, trivial⟩
  | entry key op =>
      refine ⟨?_, trivial⟩
      rintro ⟨ignores, entry, stored, expired⟩
      have samePurge := Call.agreeFrom_next monotone agree
      have dropped : (right.1.purge (clock right.2)).lookup key = none := by
        rw [← agree.1, ← samePurge, Db.lookup_purge, stored]
        simp [Option.filter, Entry.live, expired]
      change (op.apply _ (left.1.lookup key)).1 =
        (op.apply _ ((right.1.purge (clock right.2)).lookup key)).1 at sameResult
      rw [stored, dropped] at sameResult
      cases op with
      | remove => cases sameResult
      | setExpireMs ttl => cases sameResult
      | _ => cases ignores
  | _ => exact checked (DbOp.program_checksExpiry _ trivial)

/-- Methods whose results are those of the reference store met no expired
entry. -/
theorem runAll_meetsNoExpired
    (monotone : ∀ i j, i ≤ j → clock i ≤ clock j)
    (ops : List DbOp)
    {left right : Db × ℕ} (agree : AgreeFrom clock left right)
    (sameResults : ((DbOp.runAll ops).run (Call.lazyAt clock) left).1 =
      ((DbOp.runAll ops).run (Call.refAt clock) right).1) :
    MeetsNoExpired clock (DbOp.runAll ops) left := by
  induction ops generalizing left right with
  | nil => trivial
  | cons op ops ih =>
      simp only [DbOp.runAll, Program.run_bind, Program.pure_eq,
        Program.run_pure, List.cons.injEq, Sigma.mk.injEq, heq_eq_eq,
        true_and] at sameResults
      have meets := program_meetsNoExpired monotone op agree sameResults.1
      obtain ⟨-, stillAgree⟩ := Program.run_simulates_along
        (Call.exec_simulates monotone) op.program meets agree
      have restMeets := ih stillAgree sameResults.2
      simp only [DbOp.runAll, MeetsNoExpired, Program.along_bind,
        Program.pure_eq, Program.along_pure, and_true]
      exact ⟨meets, restMeets⟩

/-- Lazy expiry is transparent in exactly the runs in which no `remove` or
`set_expire_ms` finds an expired entry under its key and no `flush` finds one
in its shard. -/
theorem transparent_iff
    (monotone : ∀ i j, i ≤ j → clock i ≤ clock j)
    (db : Db) (ops : List DbOp) :
    Transparent clock db ops ↔
      MeetsNoExpired clock (DbOp.runAll ops) (db, 0) := by
  have start : AgreeFrom clock (db, 0) (db, 0) := ⟨rfl, fun _ _ => rfl⟩
  constructor
  · intro transparent
    exact runAll_meetsNoExpired monotone ops start transparent.1
  · intro meets
    obtain ⟨sameResults, agree⟩ := Program.run_simulates_along
      (Call.exec_simulates monotone) (DbOp.runAll ops) meets start
    exact ⟨sameResults, fun now after key =>
      Db.visible_eq_of_purge_eq (agree.2 now after) key⟩

end Runs

/-- A key whose entry expired at 5, removed at 10: `remove` reports it. -/
def removeExpired : List DbOp :=
  [.entry (asBytes "k") (.set (.int 1) (some 5)), .entry (asBytes "k") .remove]

/-- Lazy expiry is not transparent in every run: the expired key counts as
removed. -/
theorem not_always_transparent :
    ¬∀ clock : ℕ → UInt64, (∀ i j, i ≤ j → clock i ≤ clock j) →
      ∀ (db : Db) (ops : List DbOp), Transparent clock db ops := by
  intro always
  have monotone : ∀ i j : ℕ, i ≤ j → (10 : UInt64) ≤ 10 := fun _ _ _ => by decide
  have transparent := always (fun _ => 10) monotone Db.empty removeExpired
  have meets := runAll_meetsNoExpired monotone removeExpired
    (⟨rfl, fun _ _ => rfl⟩ : AgreeFrom _ (Db.empty, 0) (Db.empty, 0))
    transparent.1
  obtain ⟨-, removeMeets, -⟩ := meets
  refine removeMeets ⟨rfl, ⟨.int 1, some 5⟩, ?_, by decide⟩
  exact (Db.lookup_put _ _ _ _).trans (if_pos rfl)

/-- A run with an expired entry that is only read: `exists` drops it. -/
theorem transparent_iff_readExpired :
    Transparent (fun _ => 10) Db.empty
      [.entry (asBytes "k") (.set (.int 1) (some 5)),
        .entry (asBytes "k") .keyExists] :=
  (@transparent_iff (fun _ => 10) (fun _ _ _ => by decide) _ _).mpr
    ⟨nofun, nofun, trivial⟩

end Cache
end MuonJs
