import MuonJs.Cache.Errors

/-!
# What a command does not touch

A command leaves the live entries alone under every key that is not among its
arguments, and a command that is not about expiry keeps the expiry of a key that
is live before and after it.  Three commands can give a key a new entry instead:
`SMOVE` of the only member of a set to the same set, or to a set that expires between
the readings of the clock for the two keys, and `HSET` or `ZADD` of several pairs when
the key expires between two of them.
-/

namespace MuonJs
namespace Cache

/-! ## Expiry under one key -/

namespace Shard

/-- What a method that changes a value in place leaves of a live entry. -/
theorem updateAs_expiresAt
    {kind : Value → Option β} {wrap : β → Value}
    {change : β → Fallible α × Option β}
    {missing : Fallible α × Option Value}
    {now : UInt64} {entry : Option Entry} {stored left : Entry}
    (found : entry.filter (Entry.live now) = some stored)
    (isLeft : (updateAs kind wrap change missing now entry).2 = some left) :
    left.expiresAt = stored.expiresAt := by
  rw [updateAs, live, found] at isLeft
  dsimp only at isLeft
  split at isLeft
  · obtain ⟨new, -, rfl⟩ := Option.map_eq_some_iff.mp isLeft
    rfl
  · cases isLeft
    rfl

theorem hashSetWith_expiresAt
    {insert : HashStore → Fallible Bool × HashStore} {fresh : HashStore}
    {now : UInt64} {entry : Option Entry} {stored left : Entry}
    (found : entry.filter (Entry.live now) = some stored)
    (isLeft : (hashSetWith insert fresh now entry).2 = some left) :
    left.expiresAt = stored.expiresAt := by
  obtain ⟨rfl, isLive⟩ := Option.filter_eq_some_iff.mp found
  have notExpired : ¬stored.expired now = true := by
    rw [Entry.live, Bool.not_eq_true'] at isLive
    rw [isLive]
    exact Bool.false_ne_true
  unfold hashSetWith at isLeft
  dsimp only at isLeft
  rw [if_neg notExpired] at isLeft
  split at isLeft
  · cases isLeft
    rfl
  · cases isLeft
    rfl

end Shard

/-- The commands about keys and expiry: they set an entry anew, set its expiry or
remove it. -/
def Command.setsExpiry (cmd : Command) : Bool :=
  [Command.set, .mset, .getset, .expire, .pexpire, .persist, .del, .flushdb,
    .flushall].contains cmd

namespace EntryOp

/-- A method that only reads leaves the entry it found, or none. -/
theorem apply_reads_eq
    {op : EntryOp} (isRead : op.reads = true) {now : UInt64}
    {entry : Option Entry} {left : Entry}
    (isLeft : (op.apply now entry).2 = some left) :
    entry = some left := by
  have ofLive : entry.filter (Entry.live now) = some left → entry = some left :=
    fun found => (Option.filter_eq_some_iff.mp found).1
  cases op with
  | keyExists | valueType => exact ofLive isLeft
  | ttlMs =>
      cases entry with
      | none => cases isLeft
      | some stored =>
          unfold apply Shard.ttlMs at isLeft
          dsimp only at isLeft
          split at isLeft
          · split at isLeft
            · cases isLeft
            · exact isLeft
          · exact isLeft
  | getString | listRange | listLen | listIndex | hashGet | hashLen | hashExists
  | hashGetall | setMembers | setIsMember | setCard | zcard | zrange | streamRange
  | streamLen | streamRevRange =>
      apply ofLive
      rw [← isLeft]
      change _ = (Shard.readAs _ _ _ now entry).2
      unfold Shard.readAs Shard.live
      cases entry.filter (Entry.live now) with
      | none => rfl
      | some stored => dsimp only; split <;> rfl
  | _ => cases isRead

/-- A method that a command not about expiry calls keeps the expiry of a live
entry. -/
theorem apply_expiresAt
    {op : EntryOp} {cmd : Command} (called : op.calledBy cmd = true)
    (notExpiry : cmd.setsExpiry = false) {now : UInt64}
    {entry : Option Entry} {stored left : Entry}
    (found : entry.filter (Entry.live now) = some stored)
    (isLeft : (op.apply now entry).2 = some left) :
    left.expiresAt = stored.expiresAt := by
  cases op with
  | remove | persist | setStringRef =>
      rw [eq_of_beq called] at notExpiry
      cases notExpiry
  | setExpireMs | setString =>
      rw [calledBy, Bool.or_eq_true, beq_iff_eq, beq_iff_eq] at called
      rcases called with rfl | rfl <;> cases notExpiry
  | setNx value =>
      change (Shard.setNx value now entry).2 = some left at isLeft
      unfold Shard.setNx Shard.live at isLeft
      rw [found] at isLeft
      cases isLeft
      rfl
  | incrBy delta =>
      change (Shard.incrBy delta now entry).2 = some left at isLeft
      unfold Shard.incrBy Shard.live at isLeft
      rw [found] at isLeft
      dsimp only at isLeft
      split at isLeft <;> cases isLeft <;> rfl
  | hashSetRef field value => exact Shard.hashSetWith_expiresAt found isLeft
  | append | listPush | listPop | listSet | listInsert | listRem | listPushX | listTrim
  | hashDel | hashIncrBy | hashSetNx | setAdd | setRemove | zadd | zrem | streamDel =>
      exact Shard.updateAs_expiresAt found isLeft
  | streamAdd id fields =>
      change (Shard.streamAdd id fields now entry).2 = some left at isLeft
      unfold Shard.streamAdd at isLeft
      split at isLeft
      · exact Shard.updateAs_expiresAt found isLeft
      · rw [Shard.live, found] at isLeft
        cases isLeft
        rfl
  | _ => cases called

end EntryOp

/-! ## The keys a command does not name -/

namespace Db

/-- `Db::set_move` with the readings of the clock that it makes, one for each key. -/
def setMoveAt (db : Db) (first second : UInt64) (source dest member : Bytes) :
    Fallible Bool × Db :=
  let db := (db.dropExpired first source).dropExpired second dest
  match db.access source (Shard.takeMember member) with
  | (.ok true, db) => db.access dest (Shard.addMember member)
  | (result, db) => (result, db)

/-- With equal readings it is the move at one time. -/
theorem setMoveAt_self (db : Db) (now : UInt64) (source dest member : Bytes) :
    db.setMoveAt now now source dest member = db.setMove now source dest member := rfl

theorem lookup_setMoveAt_of_ne
    (db : Db) (first second : UInt64) {source dest key : Bytes} (member : Bytes)
    (notSource : source ≠ key) (notDest : dest ≠ key) :
    (db.setMoveAt first second source dest member).2.lookup key = db.lookup key := by
  have settled : ((db.dropExpired first source).dropExpired second dest).lookup key =
      db.lookup key := by
    rw [lookup_dropExpired, if_neg notDest, lookup_dropExpired, if_neg notSource]
  have taken := lookup_access ((db.dropExpired first source).dropExpired second dest) source key
    (Shard.takeMember member)
  rw [if_neg notSource, settled] at taken
  unfold setMoveAt
  dsimp only
  split
  · rename_i isTaken
    rw [isTaken] at taken
    rw [lookup_access, if_neg notDest]
    exact taken
  · rename_i isTaken
    rw [isTaken] at taken
    exact taken

end Db

namespace HandlerCall

variable {cmd : Command} {args : List Bytes} {key : Bytes}

/-- A call of a command keeps what is live under a key the command does not
name. -/
theorem visible_exec
    {call : Call} (ofRequest : (HandlerCall.db call).ofRequest cmd args)
    (notFlush : cmd ≠ .flushdb) (notKey : key ∉ cmd.keyArgs args)
    {now later : UInt64} (inTime : now ≤ later) (db : Db) :
    (call.exec now db).2.visible later key = db.visible later key := by
  cases call with
  | entry other op =>
      rcases ofRequest with isRead | ⟨isKey, -⟩
      · exact Db.visible_eq_of_purge_eq
          (@Call.purge_exec_reads (.entry other op) isRead now later inTime db) key
      · have different : other ≠ key := fun same => notKey (same ▸ isKey)
        rw [Db.visible, Call.exec, Db.lookup_access, if_neg different, Db.visible]
  | setMove source dest member =>
      obtain ⟨-, isSource, isDest⟩ := ofRequest
      have notSource : source ≠ key := by
        rintro rfl
        exact notKey isSource
      have notDest : dest ≠ key := by
        rintro rfl
        exact notKey isDest
      rw [Db.visible, Call.exec, ← Db.setMoveAt_self,
        Db.lookup_setMoveAt_of_ne db now now member notSource notDest, Db.visible]
  | shard index op =>
      cases op with
      | flush => exact absurd ofRequest notFlush
      | _ =>
          exact Db.visible_eq_of_purge_eq
            (Db.purge_eq_later (Call.purge_purgeShard db now index) inTime) key

/-- A call of a command on other keys leaves under a key what was there, or
nothing. -/
theorem lookup_exec_of_notMem
    {call : Call} (ofRequest : (HandlerCall.db call).ofRequest cmd args)
    (notFlush : cmd ≠ .flushdb) (notKey : key ∉ cmd.keyArgs args)
    {now : UInt64} {db : Db} {left : Entry}
    (isLeft : (call.exec now db).2.lookup key = some left) :
    db.lookup key = some left := by
  cases call with
  | entry other op =>
      rw [Call.exec, Db.lookup_access] at isLeft
      split at isLeft
      · rename_i same
        rcases ofRequest with isRead | ⟨isKey, -⟩
        · rw [same] at isLeft
          exact op.apply_reads_eq isRead isLeft
        · exact absurd (same ▸ isKey) notKey
      · exact isLeft
  | setMove source dest member =>
      obtain ⟨-, isSource, isDest⟩ := ofRequest
      have notSource : source ≠ key := by
        rintro rfl
        exact notKey isSource
      have notDest : dest ≠ key := by
        rintro rfl
        exact notKey isDest
      rw [Call.exec, ← Db.setMoveAt_self,
        Db.lookup_setMoveAt_of_ne db now now member notSource notDest] at isLeft
      exact isLeft
  | shard index op =>
      cases op with
      | flush => exact absurd ofRequest notFlush
      | _ =>
          change (db.purgeShard now index).lookup key = some left at isLeft
          rw [Db.lookup_purgeShard] at isLeft
          split at isLeft
          · exact (Option.filter_eq_some_iff.mp isLeft).1
          · exact isLeft

end HandlerCall

namespace Handler

variable {clock : ℕ → UInt64} {cmd : Command} {args : List Bytes} {key : Bytes}

theorem visible_runFrom
    {handler : Handler α} (issues : handler.Issues (HandlerCall.ofRequest cmd args))
    (notFlush : cmd ≠ .flushdb) (notKey : key ∉ cmd.keyArgs args)
    {state : HandlerState} {tick : ℕ} {later : UInt64}
    (inTime : ReadBy clock tick (runFrom clock handler state tick).2.2 later) :
    (runFrom clock handler state tick).2.1.db.visible later key =
      state.db.visible later key := by
  induction handler generalizing state tick with
  | pure value => rfl
  | call request next ih =>
      have started : clock tick ≤ later :=
        inTime tick le_rfl (tick_le_runFrom (next _) _ (tick + 1))
      have rest := ih _ (issues.2 _)
        fun later isLater => inTime later (Nat.le_of_succ_le isLater)
      refine rest.trans ?_
      cases request with
      | db call => exact HandlerCall.visible_exec issues.1 notFlush notKey started state.db
      | _ => rfl

/-- What every call leaves under a key only if it was there, a handler leaves
only if it was there. -/
theorem lookup_runFrom
    {handler : Handler α} {left : Entry} {allowed : HandlerCall → Prop}
    (issues : handler.Issues allowed) (inherits : Entry → Entry → Prop)
    (refl : ∀ entry, inherits entry entry)
    (trans : ∀ first second third, inherits first second → inherits second third →
      inherits first third)
    (each : ∀ call, allowed (.db call) → ∀ (now : UInt64) (db : Db) (left : Entry),
      (call.exec now db).2.lookup key = some left →
        ∃ stored, db.lookup key = some stored ∧ inherits stored left)
    {state : HandlerState} {tick : ℕ}
    (isLeft : (runFrom clock handler state tick).2.1.db.lookup key = some left) :
    ∃ stored, state.db.lookup key = some stored ∧ inherits stored left := by
  induction handler generalizing state tick with
  | pure value => exact ⟨left, isLeft, refl left⟩
  | call request next ih =>
      obtain ⟨between, isBetween, later⟩ := ih _ (issues.2 _) isLeft
      cases request with
      | db call =>
          obtain ⟨stored, isStored, earlier⟩ := each call issues.1 _ _ _ isBetween
          exact ⟨stored, isStored, trans _ _ _ earlier later⟩
      | _ => exact ⟨between, isBetween, later⟩

end Handler

/-! ## Moving a member to its own set -/

namespace Shard

theorem takeMember_expiresAt
    {member : Bytes} {entry : Option Entry} {left : Entry}
    (isLeft : (takeMember member entry).2 = some left) :
    ∃ stored, entry = some stored ∧ left.expiresAt = stored.expiresAt := by
  cases entry with
  | none => cases isLeft
  | some stored =>
      refine ⟨stored, rfl, ?_⟩
      unfold takeMember at isLeft
      dsimp only at isLeft
      split at isLeft
      · cases isLeft
        rfl
      · split at isLeft
        · split at isLeft
          · cases isLeft
          · cases isLeft
            rfl
        · cases isLeft
          rfl

theorem addMember_expiresAt
    {member : Bytes} {entry : Option Entry} {left : Entry}
    (isLeft : (addMember member entry).2 = some left) :
    (∃ stored, entry = some stored ∧ left.expiresAt = stored.expiresAt) ∨
      entry = none ∧ left.expiresAt = none := by
  cases entry with
  | none =>
      cases isLeft
      exact .inr ⟨rfl, rfl⟩
  | some stored =>
      refine .inl ⟨stored, rfl, ?_⟩
      unfold addMember at isLeft
      dsimp only at isLeft
      split at isLeft <;> cases isLeft <;> rfl

/-- The value is a set that has the member and no other. -/
def OnlyMember (member : Bytes) (value : Value) : Prop :=
  ∃ members, value.asSet = some members ∧ members.contains member = true ∧
    (members.erase member).isEmpty = true

/-- Taking the member removes the set exactly when there is no other member. -/
theorem takeMember_eq_none_iff (member : Bytes) (stored : Entry) :
    (takeMember member (some stored)).2 = none ↔ OnlyMember member stored.value := by
  unfold takeMember OnlyMember
  dsimp only
  cases isSet : stored.value.asSet with
  | none => exact iff_of_false nofun nofun
  | some members =>
      dsimp only
      by_cases isMember : members.contains member = true
      · rw [if_pos isMember]
        by_cases isLast : (members.erase member).isEmpty = true
        · rw [if_pos isLast]
          exact iff_of_true rfl ⟨members, rfl, isMember, isLast⟩
        · rw [if_neg isLast]
          refine iff_of_false nofun ?_
          rintro ⟨_, ⟨⟩, -, isEmpty⟩
          exact isLast isEmpty
      · rw [if_neg isMember]
        refine iff_of_false nofun ?_
        rintro ⟨_, ⟨⟩, contains, -⟩
        exact isMember contains

theorem takeMember_of_onlyMember
    {member : Bytes} {stored : Entry} (isOnly : OnlyMember member stored.value) :
    takeMember member (some stored) = (.ok true, none) := by
  obtain ⟨members, isSet, isMember, isLast⟩ := isOnly
  unfold takeMember
  dsimp only
  rw [isSet]
  dsimp only
  rw [if_pos isMember, if_pos isLast]

end Shard

namespace Entry

theorem live_of_lt
    {now : UInt64} {entry : Entry} (notYet : ∀ ts, entry.expiresAt = some ts → now < ts) :
    entry.live now = true := by
  unfold live expired
  cases expiry : entry.expiresAt with
  | none => rfl
  | some ts =>
      have notPassed : ¬ts ≤ now := UInt64.not_le.mpr (notYet ts expiry)
      simp [notPassed]

theorem live_of_le
    {now ts : UInt64} {entry : Entry} (expiry : entry.expiresAt = some ts)
    (passed : ts ≤ now) :
    entry.live now = false := by
  unfold live expired
  rw [expiry]
  simp [passed]

end Entry

namespace Db

variable {db : Db} {first second : UInt64} {source dest member key : Bytes} {stored : Entry}

/-- A move gives its live destination a new entry without the expiry: the only member goes
to its own set, or the destination expires before it is checked and a live source has the
member. -/
def MoveRecreates (db : Db) (first second : UInt64) (source dest member : Bytes) : Prop :=
  ∃ stored, db.visible first dest = some stored ∧
    (source = dest ∧ stored.expiresAt ≠ none ∧ stored.live second = true ∧
        Shard.OnlyMember member stored.value ∨
      source ≠ dest ∧ stored.live second = false ∧ db.HasMember first source member)

/-- The destination after the two expiry checks. -/
theorem lookup_checked (found : db.visible first key = some stored) :
    ((db.dropExpired first source).dropExpired second key).lookup key =
      (some stored).filter (Entry.live second) := by
  rw [lookup_dropExpired, if_pos rfl, lookup_dropExpired]
  split
  case isTrue same =>
    rw [same]
    exact congrArg (Option.filter (Entry.live second)) found
  case isFalse => rw [(Option.filter_eq_some_iff.mp found).1]

/-- A move keeps the expiry of a live entry, unless it gives it a new one. -/
theorem setMoveAt_expiresAt
    {left : Entry} (found : db.visible first key = some stored)
    (isLeft : (db.setMoveAt first second source dest member).2.lookup key = some left)
    (otherwise : ¬db.MoveRecreates first second source dest member) :
    left.expiresAt = stored.expiresAt := by
  have isStored := (Option.filter_eq_some_iff.mp found).1
  have ofChecked : ∀ entry, ((db.dropExpired first source).dropExpired second dest).lookup key =
      some entry → entry = stored := by
    intro entry isEntry
    have before : db.lookup key = some entry := by
      rw [lookup_dropExpired, lookup_dropExpired, lookup_dropExpired] at isEntry
      split at isEntry
      · rename_i isDest
        rw [isDest] at isEntry
        have isFirst := (Option.filter_eq_some_iff.mp isEntry).1
        split at isFirst
        · rename_i isSource
          rw [isSource] at isFirst
          exact (Option.filter_eq_some_iff.mp isFirst).1
        · exact isFirst
      · split at isEntry
        · rename_i isSource
          rw [isSource] at isEntry
          exact (Option.filter_eq_some_iff.mp isEntry).1
        · exact isEntry
    exact (Option.some.inj (isStored.symm.trans before)).symm
  have ofTaken : ∀ entry, (((db.dropExpired first source).dropExpired second dest).access source
      (Shard.takeMember member)).2.lookup key = some entry →
        entry.expiresAt = stored.expiresAt := by
    intro entry isEntry
    rw [lookup_access] at isEntry
    split at isEntry
    · rename_i same
      subst same
      obtain ⟨before, isBefore, sameExpiry⟩ := Shard.takeMember_expiresAt isEntry
      rw [sameExpiry, ofChecked before isBefore]
    · rw [ofChecked entry isEntry]
  unfold setMoveAt at isLeft
  dsimp only at isLeft
  split at isLeft
  · rename_i after isTaken
    have moved := congrArg Prod.fst isTaken
    rw [access_result] at moved
    rw [isTaken] at ofTaken
    rw [lookup_access] at isLeft
    split at isLeft
    · rename_i isDest
      subst isDest
      rcases Shard.addMember_expiresAt isLeft with ⟨before, isBefore, sameExpiry⟩ | created
      · rw [sameExpiry, ofTaken before isBefore]
      · -- the destination is gone: its only member was taken, or it has expired
        have gone : (((db.dropExpired first source).dropExpired second dest).access source
            (Shard.takeMember member)).2.lookup dest = none := by
          rw [isTaken]
          exact created.1
        rw [created.2]
        rw [lookup_access] at gone
        by_cases isLive : stored.live second = true
        · have checked : ((db.dropExpired first source).dropExpired second dest).lookup dest =
              (some stored).filter (Entry.live second) := lookup_checked found
          rw [Option.filter_some, if_pos isLive] at checked
          rw [checked] at gone
          split at gone
          · rename_i isSource
            subst isSource
            rw [checked] at gone
            by_contra expires
            exact otherwise ⟨stored, found, .inl ⟨rfl, Ne.symm expires, isLive,
              (Shard.takeMember_eq_none_iff member stored).mp gone⟩⟩
          · cases gone
        · by_cases isSource : source = dest
          · subst isSource
            rw [lookup_checked found, Option.filter_some, if_neg isLive] at moved
            cases moved
          · refine absurd ⟨stored, found, .inr ⟨isSource, Bool.eq_false_iff.mpr isLive, ?_⟩⟩ otherwise
            by_contra lacks
            refine (takeMember_of_not_hasMember lacks).2 ?_
            rwa [lookup_dropExpired, if_neg (Ne.symm isSource), lookup_dropExpired, if_pos rfl]
              at moved
    · exact ofTaken left isLeft
  · rename_i isTaken
    rw [isTaken] at ofTaken
    exact ofTaken left isLeft

/-- The member is taken from a set that has it. -/
theorem takeMember_of_hasMember (has : db.HasMember first source member) :
    (Shard.takeMember member (db.visible first source)).1 = .ok true := by
  obtain ⟨entry, members, found, isSet, isMember⟩ := has
  rw [found]
  unfold Shard.takeMember
  dsimp only
  rw [isSet]
  dsimp only
  rw [if_pos isMember]

/-- A move that takes the member and finds no destination creates it anew. -/
theorem lookup_setMoveAt_of_gone
    (isTaken : (Shard.takeMember member
      (((db.dropExpired first source).dropExpired second dest).lookup source)).1 = .ok true)
    (gone : (((db.dropExpired first source).dropExpired second dest).access source
      (Shard.takeMember member)).2.lookup dest = none) :
    (db.setMoveAt first second source dest member).2.lookup dest =
      some ⟨.set ((∅ : ByteSet).insert member), none⟩ := by
  rw [← access_result] at isTaken
  unfold setMoveAt
  dsimp only
  generalize ((db.dropExpired first source).dropExpired second dest).access source
    (Shard.takeMember member) = moved at isTaken gone
  obtain ⟨result, after⟩ := moved
  obtain rfl : result = .ok true := isTaken
  dsimp only
  rw [lookup_access, if_pos rfl, gone]
  rfl

theorem lookup_setMoveAt_of_recreates
    (recreates : db.MoveRecreates first second source dest member) :
    ∃ stored, db.visible first dest = some stored ∧ stored.expiresAt ≠ none ∧
      (db.setMoveAt first second source dest member).2.lookup dest =
        some ⟨.set ((∅ : ByteSet).insert member), none⟩ := by
  obtain ⟨stored, found, ⟨rfl, expires, isLive, isOnly⟩ | ⟨differ, notLive, has⟩⟩ := recreates
  · have checked : ((db.dropExpired first source).dropExpired second source).lookup source =
        some stored := by
      rw [lookup_checked found, Option.filter_some, if_pos isLive]
    have taken := Shard.takeMember_of_onlyMember isOnly
    refine ⟨stored, found, expires, lookup_setMoveAt_of_gone ?_ ?_⟩
    · rw [checked, taken]
    · rw [lookup_access, if_pos rfl, checked, taken]
  · refine ⟨stored, found, fun noExpiry => ?_, lookup_setMoveAt_of_gone ?_ ?_⟩
    · rw [Entry.live_of_lt fun ts isTs => by rw [noExpiry] at isTs; cases isTs] at notLive
      cases notLive
    · rw [lookup_dropExpired, if_neg (Ne.symm differ), lookup_dropExpired, if_pos rfl]
      exact takeMember_of_hasMember has
    · rw [lookup_access, if_neg differ, lookup_checked found, Option.filter_some, notLive]
      rfl

end Db

/-! ## Several writes under one key -/

/-- There is an entry of the kind with the expiry. -/
def HoldsKind (kind : Value → Option β) (expiresAt : Option UInt64)
    (entry : Option Entry) : Prop :=
  ∃ stored, entry = some stored ∧ (kind stored.value).isSome = true ∧
    stored.expiresAt = expiresAt

/-- A method that writes values of a kind: it keeps the expiry of a live value,
creates an expired one anew without expiry, and fails on a live value of another
kind. -/
structure EntryOp.Renews (kind : Value → Option β) (op : EntryOp) : Prop where
  keeps : ∀ (now : UInt64) (entry : Option Entry) (expiresAt : Option UInt64),
    HoldsKind kind expiresAt entry → (∀ ts, expiresAt = some ts → now < ts) →
      op.failed (op.apply now entry).1 = false ∧
        HoldsKind kind expiresAt (op.apply now entry).2
  creates : ∀ (now : UInt64) (entry : Option Entry) (ts : UInt64),
    HoldsKind kind (some ts) entry → ts ≤ now →
      op.failed (op.apply now entry).1 = false ∧
        HoldsKind kind none (op.apply now entry).2
  fails : ∀ (now : UInt64) (entry : Option Entry) (stored : Entry),
    entry.filter (Entry.live now) = some stored → (kind stored.value).isSome = false →
      op.failed (op.apply now entry).1 = true ∧ (op.apply now entry).2 = some stored

theorem zadd_renews (score : F64) (member : Bytes) :
    (EntryOp.zadd score member).Renews Value.asZSet where
  keeps now entry expiresAt holds notYet := by
    obtain ⟨stored, rfl, isKind, rfl⟩ := holds
    obtain ⟨scores, isScores⟩ := Option.isSome_iff_exists.mp isKind
    have isLive : stored.live now = true := Entry.live_of_lt notYet
    change (Shard.zadd score member now (some stored)).1.isError = false ∧
      HoldsKind _ stored.expiresAt (Shard.zadd score member now (some stored)).2
    unfold Shard.zadd Shard.updateAs Shard.live
    rw [Option.filter_some, if_pos isLive]
    dsimp only
    rw [isScores]
    exact ⟨rfl, _, rfl, rfl, rfl⟩
  creates now entry ts holds passed := by
    obtain ⟨stored, rfl, isKind, expiry⟩ := holds
    have notLive : ¬stored.live now = true := by
      rw [Entry.live_of_le expiry passed]
      exact Bool.false_ne_true
    change (Shard.zadd score member now (some stored)).1.isError = false ∧
      HoldsKind _ none (Shard.zadd score member now (some stored)).2
    unfold Shard.zadd Shard.updateAs Shard.live
    rw [Option.filter_some, if_neg notLive]
    exact ⟨rfl, _, rfl, rfl, rfl⟩
  fails now entry stored found otherKind := by
    change (Shard.zadd score member now entry).1.isError = true ∧
      (Shard.zadd score member now entry).2 = some stored
    unfold Shard.zadd Shard.updateAs Shard.live
    rw [found]
    dsimp only
    rw [Option.isSome_eq_false_iff, Option.isNone_iff_eq_none] at otherKind
    rw [otherKind]
    exact ⟨rfl, rfl⟩

theorem hashSetRef_renews (field value : Bytes) :
    (EntryOp.hashSetRef field value).Renews Value.asHash where
  keeps now entry expiresAt holds notYet := by
    obtain ⟨stored, rfl, isKind, rfl⟩ := holds
    obtain ⟨fields, isFields⟩ := Option.isSome_iff_exists.mp isKind
    have notExpired : ¬stored.expired now = true := by
      have isLive := Entry.live_of_lt notYet
      rw [Entry.live, Bool.not_eq_true'] at isLive
      rw [isLive]
      exact Bool.false_ne_true
    change (Shard.hashSetRef field value now (some stored)).1.isError = false ∧
      HoldsKind _ stored.expiresAt (Shard.hashSetRef field value now (some stored)).2
    unfold Shard.hashSetRef Shard.hashSetWith
    dsimp only
    rw [if_neg notExpired, isFields]
    dsimp only
    split <;> exact ⟨rfl, _, rfl, rfl, rfl⟩
  creates now entry ts holds passed := by
    obtain ⟨stored, rfl, isKind, expiry⟩ := holds
    have isExpired : stored.expired now = true := by
      have notLive := Entry.live_of_le expiry passed
      rw [Entry.live, Bool.not_eq_false'] at notLive
      exact notLive
    change (Shard.hashSetRef field value now (some stored)).1.isError = false ∧
      HoldsKind _ none (Shard.hashSetRef field value now (some stored)).2
    unfold Shard.hashSetRef Shard.hashSetWith
    dsimp only
    rw [if_pos isExpired]
    exact ⟨rfl, _, rfl, rfl, rfl⟩
  fails now entry stored found otherKind := by
    obtain ⟨rfl, isLive⟩ := Option.filter_eq_some_iff.mp found
    have notExpired : ¬stored.expired now = true := by
      rw [Entry.live, Bool.not_eq_true'] at isLive
      rw [isLive]
      exact Bool.false_ne_true
    rw [Option.isSome_eq_false_iff, Option.isNone_iff_eq_none] at otherKind
    change (Shard.hashSetRef field value now (some stored)).1.isError = true ∧
      (Shard.hashSetRef field value now (some stored)).2 = some stored
    unfold Shard.hashSetRef Shard.hashSetWith
    dsimp only
    rw [if_neg notExpired, otherKind]
    exact ⟨rfl, rfl⟩

/-- A handler that makes a number of such writes under one key and stops at a
failure. -/
inductive Handler.Writes (key : Bytes) (kind : Value → Option β) :
    ℕ → Handler (Fallible α) → Prop
  | done (value : α) : Handler.Writes key kind 0 (.pure (.ok value))
  | step {count : ℕ} (op : EntryOp) (next : op.Result → Handler (Fallible α))
      (renews : op.Renews kind)
      (continues : ∀ result, op.failed result = false →
        Handler.Writes key kind count (next result))
      (stops : ∀ result, op.failed result = true →
        next result = .pure (.error ())) :
      Handler.Writes key kind (count + 1)
        (@Program.call HandlerCall.signature _ (.db (.entry key op)) next)

namespace Handler

variable {clock : ℕ → UInt64} {key : Bytes} {kind : Value → Option β}

theorem half_length_eq_zero
    {pairs : List α}
    (short : ∀ first second rest, pairs = first :: second :: rest → False) :
    pairs.length / 2 = 0 := by
  match pairs with
  | [] => exact Nat.zero_div 2
  | [_] => exact Nat.div_eq_of_lt Nat.one_lt_two
  | first :: second :: rest => exact (short first second rest rfl).elim

theorem hsetLoop_writes (key : Bytes) (added : Int64) (pairs : List Bytes) :
    Writes key Value.asHash (pairs.length / 2) (hsetLoop key added pairs) := by
  fun_induction hsetLoop key added pairs with
  | case1 added field value rest ih =>
      rw [List.length_cons, List.length_cons, Nat.add_div_right _ Nat.two_pos]
      refine .step _ _ (hashSetRef_renews field value)
        (Fallible.forall_ok ih) (Fallible.forall_error rfl)
  | case2 pairs added short =>
      rw [half_length_eq_zero short]
      exact .done added

theorem zaddLoop_writes (key : Bytes) (added : Int64) (pairs : List Bytes) :
    Writes key Value.asZSet (pairs.length / 2) (zaddLoop key added pairs) := by
  fun_induction zaddLoop key added pairs with
  | case1 added score member rest ih =>
      rw [List.length_cons, List.length_cons, Nat.add_div_right _ Nat.two_pos]
      refine .step _ _ (zadd_renews _ member)
        (Fallible.forall_ok ih) (Fallible.forall_error rfl)
  | case2 pairs added short =>
      rw [half_length_eq_zero short]
      exact .done added

/-- While the key does not expire the writes keep its expiry. -/
theorem Writes.keeps
    {count : ℕ} {handler : Handler (Fallible α)} (writes : Writes key kind count handler)
    {state : HandlerState} {tick : ℕ} {expiresAt : Option UInt64}
    (holds : HoldsKind kind expiresAt (state.db.lookup key))
    (notYet : ∀ ts, expiresAt = some ts → ∀ i < count, clock (tick + i) < ts) :
    HoldsKind kind expiresAt ((runFrom clock handler state tick).2.1.db.lookup key) := by
  induction writes generalizing state tick with
  | done value => exact holds
  | @step count op next renews continues stops ih =>
      obtain ⟨succeeds, stillHolds⟩ := renews.keeps (clock tick) _ expiresAt holds
        fun ts isTs => notYet ts isTs 0 count.succ_pos
      rw [← lookup_exec_entry] at stillHolds
      rw [runFrom_call]
      refine ih _ succeeds stillHolds fun ts isTs i inRange => ?_
      rw [Nat.add_assoc, Nat.add_comm 1 i]
      exact notYet ts isTs (i + 1) (Nat.succ_lt_succ inRange)

/-- When the key has expired before one of the writes it ends up without expiry. -/
theorem Writes.creates
    {count : ℕ} {handler : Handler (Fallible α)} (writes : Writes key kind count handler)
    {state : HandlerState} {tick i : ℕ} {ts : UInt64}
    (holds : HoldsKind kind (some ts) (state.db.lookup key))
    (inRange : i < count) (passed : ts ≤ clock (tick + i)) :
    HoldsKind kind none ((runFrom clock handler state tick).2.1.db.lookup key) := by
  induction writes generalizing state tick i with
  | done value => cases inRange
  | @step count op next renews continues stops ih =>
      rw [runFrom_call]
      by_cases atStart : ts ≤ clock tick
      · obtain ⟨succeeds, created⟩ := renews.creates (clock tick) _ ts holds atStart
        rw [← lookup_exec_entry] at created
        exact (continues _ succeeds).keeps created fun ts isSome => by cases isSome
      · obtain ⟨succeeds, stillHolds⟩ := renews.keeps (clock tick) _ (some ts) holds
          (by rintro _ ⟨⟩; exact UInt64.not_le.mp atStart)
        rw [← lookup_exec_entry] at stillHolds
        cases i with
        | zero => exact absurd passed atStart
        | succ i =>
            refine ih _ succeeds stillHolds (Nat.lt_of_succ_lt_succ inRange) ?_
            rw [Nat.add_assoc, Nat.add_comm 1 i]
            exact passed

/-- On a live value of another kind the first write leaves the value. -/
theorem Writes.fails
    {count : ℕ} {handler : Handler (Fallible α)} (writes : Writes key kind count handler)
    {state : HandlerState} {tick : ℕ} {stored : Entry}
    (found : state.db.visible (clock tick) key = some stored)
    (otherKind : (kind stored.value).isSome = false) :
    (runFrom clock handler state tick).2.1.db.lookup key = some stored := by
  cases writes with
  | done value => exact (Option.filter_eq_some_iff.mp found).1
  | step op next renews continues stops =>
      obtain ⟨failed, isLeft⟩ := renews.fails (clock tick) _ stored found otherKind
      have stop := stops _ failed
      rw [← lookup_exec_entry] at isLeft
      rw [runFrom_call]
      change (runFrom clock (next (op.apply (clock tick) (state.db.lookup key)).1)
        _ _).2.1.db.lookup key = _
      rw [stop]
      exact isLeft

end Handler

/-- A call that only reads leaves under a key what was there, or nothing. -/
theorem Call.lookup_exec_queries
    (call : Call) (isQuery : call.queries = true) {now : UInt64} {db : Db} {key : Bytes}
    {left : Entry} (isLeft : (call.exec now db).2.lookup key = some left) :
    db.lookup key = some left := by
  cases call with
  | entry other op =>
      rw [Call.exec, Db.lookup_access] at isLeft
      split at isLeft
      · rename_i same
        subst same
        exact op.apply_reads_eq isQuery isLeft
      · exact isLeft
  | setMove source dest member => cases isQuery
  | shard index op =>
      have ofRequest : HandlerCall.ofRequest .ping [] (.db (.shard index op)) :=
        Handler.ofRequest_of_queries _ isQuery
      exact HandlerCall.lookup_exec_of_notMem ofRequest (by decide) List.not_mem_nil isLeft

/-! ## Every command -/

namespace Handler

/-- What a call does with the readings of the clock that it makes: `set_move` makes one for
each of its keys. -/
def readings (clock : ℕ → UInt64) : Executor HandlerCall.signature (HandlerState × ℕ)
  | .db (.setMove source dest member), (state, tick) =>
      let (moved, db) := state.db.setMoveAt (clock tick) (clock (tick + 1)) source dest member
      (moved, { state with db := db }, tick + 2)
  | request, state => Program.timed HandlerCall.exec clock request state

/-- Run a handler with all its readings of the clock. -/
def runReadings (clock : ℕ → UInt64) (handler : Handler α) (state : HandlerState) :
    α × HandlerState × ℕ :=
  handler.run (readings clock) (state, 0)

end Handler

/-- The command moves a member. -/
def Moves (cmd : Command) (args : List Bytes) (source dest member : Bytes) : Prop :=
  cmd = .smove ∧ ∃ others, args = source :: dest :: member :: others

/-- A command gives a live key a new entry without the key's expiry: it moves a member so,
or it sets several fields or scores and the key expires before one of them. -/
def Recreates (clock : ℕ → UInt64) (cmd : Command) (args : List Bytes) (db : Db) : Prop :=
  (∃ source dest member, Moves cmd args source dest member ∧
      db.MoveRecreates (clock 0) (clock 1) source dest member) ∨
    ∃ key rest stored, args = key :: rest ∧ db.visible (clock 0) key = some stored ∧
      (cmd = .hset ∧ stored.value.asHash.isSome = true ∨
        cmd = .zadd ∧ stored.value.asZSet.isSome = true) ∧
      rest.length % 2 = 0 ∧ ∃ ts, stored.expiresAt = some ts ∧
        ∃ i < rest.length / 2, ts ≤ clock i

/-- A key that is live before and after the command keeps its expiry, and what is
live under a key that the command does not name stays as it is. -/
def Framed (clock : ℕ → UInt64) (context : HandlerContext) (cmd : Command)
    (args : List Bytes) (state : HandlerState) : Prop :=
  let outcome := Handler.runReadings clock (Handler.handleCommand context cmd args) state
  ∀ later, (∀ tick < outcome.2.2, clock tick ≤ later) →
    (∀ key stored left, state.db.visible (clock 0) key = some stored →
      outcome.2.1.db.visible later key = some left →
        left.expiresAt = stored.expiresAt) ∧
      ∀ key ∉ cmd.keyArgs args,
        outcome.2.1.db.visible later key = state.db.visible later key

namespace Handler

variable {clock : ℕ → UInt64} {context : HandlerContext} {args : List Bytes}
  {key : Bytes} {stored left : Entry}

/-- A handler that only reads leaves what was there, or nothing. -/
theorem lookup_runFrom_queries
    {handler : Handler α} (issues : handler.Issues fun call : HandlerCall => call.queries = true)
    {state : HandlerState} {tick : ℕ}
    (isLeft : (runFrom clock handler state tick).2.1.db.lookup key = some left) :
    state.db.lookup key = some left := by
  obtain ⟨_, isStored, rfl⟩ := lookup_runFrom issues (· = ·) (fun _ => rfl)
    (fun _ _ _ => Eq.trans)
    (fun call isQuery now db left isLeft => ⟨left, call.lookup_exec_queries isQuery isLeft, rfl⟩)
    isLeft
  exact isStored

/-- The call is one on a single key other than this one. -/
def OnOther (key : Bytes) : HandlerCall → Prop
  | .db (.entry other _) => other ≠ key
  | .db _ => False
  | _ => True

theorem lookup_runFrom_of_ne
    {handler : Handler α} (issues : handler.Issues (OnOther key))
    {state : HandlerState} {tick : ℕ}
    (isLeft : (runFrom clock handler state tick).2.1.db.lookup key = some left) :
    state.db.lookup key = some left := by
  obtain ⟨_, isStored, rfl⟩ := lookup_runFrom issues (· = ·) (fun _ => rfl)
    (fun _ _ _ => Eq.trans)
    (fun call isOther now db left isAfter => by
      cases call with
      | entry other op =>
          rw [Call.exec, Db.lookup_access, if_neg isOther] at isAfter
          exact ⟨left, isAfter, rfl⟩
      | _ => cases isOther)
    isLeft
  exact isStored

/-- Popping several items keeps the expiry of the list. -/
theorem lookup_runFrom_pop
    {cmd : Command} {popped count : Bytes} {state : HandlerState} {tick : ℕ}
    (isLeft : (runFrom clock (pop context cmd [popped, count])
      state tick).2.1.db.lookup key = some left) :
    ∃ stored, state.db.lookup key = some stored ∧ left.expiresAt = stored.expiresAt := by
  have issues : (pop context cmd [popped, count]).Issues fun call : HandlerCall =>
      call = .db (.entry popped (.listPop (cmd == .lpop))) ∨
        call = .log cmd [popped, count] := by
    unfold pop
    dsimp only
    split
    · trivial
    · refine (popLoop_issues (.inl rfl) _).bind fun values => ?_
      match values with
      | .error () => trivial
      | .ok [] => trivial
      | .ok (_ :: _) => exact (logCmd_issues (.inr rfl)).bind fun _ => trivial
  refine lookup_runFrom issues
    (fun stored left => left.expiresAt = stored.expiresAt) (fun _ => rfl)
    (fun _ _ _ earlier later => later.trans earlier)
    (fun call isPop now db left isAfter => ?_) isLeft
  rcases isPop with ⟨⟨⟩⟩ | ⟨⟨⟩⟩
  rw [Call.exec, Db.lookup_access] at isAfter
  split at isAfter
  · rename_i same
    subst same
    cases found : (db.lookup popped).filter (Entry.live now) with
    | none =>
        change (Shard.listPop _ now _).2 = some left at isAfter
        unfold Shard.listPop Shard.updateAs Shard.live at isAfter
        rw [found] at isAfter
        cases isAfter
    | some stored =>
        exact ⟨stored, (Option.filter_eq_some_iff.mp found).1,
          Shard.updateAs_expiresAt found isAfter⟩
  · exact ⟨left, isAfter, rfl⟩

/-- What a live key holds after a handler that makes several writes, when the
key does not expire before one of them. -/
theorem Writes.expiresAt
    {kind : Value → Option β} {count : ℕ} {handler : Handler (Fallible α)}
    (writes : Writes key kind count handler) {state : HandlerState} {tick : ℕ}
    (found : state.db.visible (clock tick) key = some stored)
    (notYet : (kind stored.value).isSome = true → ∀ ts, stored.expiresAt = some ts →
      ∀ i < count, clock (tick + i) < ts)
    (isLeft : (runFrom clock handler state tick).2.1.db.lookup key = some left) :
    left.expiresAt = stored.expiresAt := by
  cases isKind : (kind stored.value).isSome with
  | false =>
      rw [writes.fails found isKind] at isLeft
      cases isLeft
      rfl
  | true =>
      have isStored := (Option.filter_eq_some_iff.mp found).1
      obtain ⟨_, isLast, -, sameExpiry⟩ :=
        writes.keeps ⟨stored, isStored, isKind, rfl⟩ (notYet isKind)
      rw [isLast] at isLeft
      cases isLeft
      exact sameExpiry

/-- Without a move a handler reads the clock once for each call. -/
theorem runReadings_eq {cmd : Command}
    (notMove : ∀ source dest member, ¬Moves cmd args source dest member) (state : HandlerState) :
    runReadings clock (handleCommand context cmd args) state =
      execute clock (handleCommand context cmd args) state := by
  by_cases isMove : cmd = .smove
  · subst isMove
    match args with
    | source :: dest :: member :: others =>
        exact absurd ⟨rfl, others, rfl⟩ (notMove source dest member)
    | [_, _] | [_] | [] => rfl
  · have along : (handleCommand context cmd args).Along (readings clock)
        (fun request _ => HandlerCall.ofRequest cmd args request) (state, 0) :=
      Program.Issues.along (fun _ _ => id) handleCommand_ofRequest (state, 0)
    have simulates (request : HandlerCall.signature.Call) (left right : HandlerState × ℕ)
        (ofRequest : HandlerCall.ofRequest cmd args request) (same : left = right) :
        (readings clock request left).1 =
            (Program.timed HandlerCall.exec clock request right).1 ∧
          (readings clock request left).2 =
            (Program.timed HandlerCall.exec clock request right).2 := by
      subst same
      cases request with
      | db call =>
          cases call with
          | setMove source dest member => exact absurd ofRequest.1 isMove
          | _ => exact ⟨rfl, rfl⟩
      | _ => exact ⟨rfl, rfl⟩
    have same := Program.run_simulates_along simulates (handleCommand context cmd args) along rfl
    exact Prod.ext same.1 same.2

/-- A move reads the clock for both keys. -/
theorem runReadings_smove
    (source dest member : Bytes) (others : List Bytes) (state : HandlerState) :
    (runReadings clock
        (handleCommand context .smove (source :: dest :: member :: others)) state).2.1.db =
      (state.db.setMoveAt (clock 0) (clock 1) source dest member).2 := by
  change (Program.run (readings clock) (smove context _ source dest member) (state, 0)).2.1.db = _
  unfold smove perform
  rw [Program.perform_bind, Program.run_call]
  dsimp only
  split
  · rw [Program.run_bind]
    unfold logCmd
    split
    · rfl
    · split <;> rfl
  · rfl

/-- Every command but those about expiry keeps the expiry of a live key, unless it
gives the key a new entry. -/
theorem Shape.keepsExpiry
    {cmd : Command} {handler : Handler RespValue}
    (shape : Shape context args cmd handler)
    (notExpiry : cmd.setsExpiry = false)
    (notMove : ∀ source dest member, ¬Moves cmd args source dest member) {state : HandlerState}
    (renewsNone : ¬Recreates clock cmd args state.db)
    (found : state.db.visible (clock 0) key = some stored)
    (isLeft : (execute clock handler state).2.1.db.lookup key = some left) :
    left.expiresAt = stored.expiresAt := by
  have isStored : state.db.lookup key = some stored :=
    (Option.filter_eq_some_iff.mp found).1
  have ofSame : ∀ entry, state.db.lookup key = some entry →
      entry.expiresAt = stored.expiresAt := by
    intro entry isEntry
    rw [isStored] at isEntry
    cases isEntry
    rfl
  cases shape with
  | reading issues => exact ofSame left (lookup_runFrom_queries issues isLeft)
  | change other op logs respond errors unlogged isKey called counted =>
      rw [(runFrom_change state 0).2, Db.lookup_access] at isLeft
      split at isLeft
      · rename_i same
        rw [same] at isLeft
        exact op.apply_expiresAt called notExpiry found isLeft
      · exact ofSame left isLeft
  | set | mset | getset | del | flushdb => cases notExpiry
  | hset other pairs isArgs paired =>
      subst isArgs
      rw [execute, runFrom_bind, logAndReply_db] at isLeft
      by_cases same : other = key
      · subst same
        refine (hsetLoop_writes other 0 pairs).expiresAt found ?_ isLeft
        intro isHash ts isTs i inRange
        rw [Nat.zero_add, ← UInt64.not_le]
        exact fun passed => renewsNone (.inr ⟨other, pairs, stored, rfl, found,
          .inl ⟨rfl, isHash⟩, paired, ts, isTs, i, inRange, passed⟩)
      · exact ofSame left (lookup_runFrom_of_ne
          (hsetLoop_issues (fun _ _ => same) 0 pairs) isLeft)
  | zadd other pairs isArgs paired =>
      subst isArgs
      rw [execute, runFrom_bind, logAndReply_db] at isLeft
      by_cases same : other = key
      · subst same
        refine (zaddLoop_writes other 0 pairs).expiresAt found ?_ isLeft
        intro isZSet ts isTs i inRange
        rw [Nat.zero_add, ← UInt64.not_le]
        exact fun passed => renewsNone (.inr ⟨other, pairs, stored, rfl, found,
          .inr ⟨rfl, isZSet⟩, paired, ts, isTs, i, inRange, passed⟩)
      · exact ofSame left (lookup_runFrom_of_ne
          (zaddLoop_issues (fun _ _ => same) 0 pairs) isLeft)
  | pop other count isArgs isPop =>
      subst isArgs
      obtain ⟨entry, isEntry, sameExpiry⟩ := lookup_runFrom_pop isLeft
      rw [sameExpiry, ofSame entry isEntry]
  | smove source dest member rest isArgs =>
      exact absurd ⟨rfl, rest, isArgs⟩ (notMove source dest member)

/-- A command that gives a live key a new entry leaves it without expiry, though
it had one. -/
theorem lookup_of_recreates
    {cmd : Command} {state : HandlerState} (recreates : Recreates clock cmd args state.db) :
    ∃ key stored left, state.db.visible (clock 0) key = some stored ∧
      stored.expiresAt ≠ none ∧ left.expiresAt = none ∧
      (runReadings clock (handleCommand context cmd args) state).2.1.db.lookup key =
        some left := by
  obtain ⟨source, dest, member, ⟨rfl, others, rfl⟩, recreates⟩ | ⟨key, rest, stored, rfl, found,
    writes, paired, ts, isTs, i, inRange, passed⟩ := recreates
  · obtain ⟨stored, found, expires, isLeft⟩ := Db.lookup_setMoveAt_of_recreates recreates
    refine ⟨dest, stored, _, found, expires, ?_, (congrArg (Db.lookup · dest)
      (runReadings_smove source dest member others state)).trans isLeft⟩
    rfl
  · rw [runReadings_eq (fun source dest member moves => by
      rcases writes with ⟨rfl, -⟩ | ⟨rfl, -⟩ <;> cases moves.1)]
    have isStored := (Option.filter_eq_some_iff.mp found).1
    have expires : stored.expiresAt ≠ none := by
      rw [isTs]
      exact Option.some_ne_none ts
    rw [← Nat.zero_add i] at passed
    rcases writes with ⟨rfl, isHash⟩ | ⟨rfl, isZSet⟩
    · obtain ⟨left, isLeft, -, noExpiry⟩ := (hsetLoop_writes key 0 rest).creates
        ⟨stored, isStored, isHash, isTs⟩ inRange passed
      refine ⟨key, stored, left, found, expires, noExpiry, ?_⟩
      have arity : ¬((key :: rest).length < 3 ∨ (key :: rest).length % 2 = 0) := by
        rw [List.length_cons]
        omega
      have handler : handleCommand context .hset (key :: rest) = (do
          logAndReply context .hset (key :: rest) .integer (← hsetLoop key 0 rest)) :=
        if_neg arity
      rw [handler, execute, runFrom_bind, logAndReply_db]
      exact isLeft
    · obtain ⟨left, isLeft, -, noExpiry⟩ := (zaddLoop_writes key 0 rest).creates
        ⟨stored, isStored, isZSet, isTs⟩ inRange passed
      refine ⟨key, stored, left, found, expires, noExpiry, ?_⟩
      have arity : ¬((key :: rest).length < 3 ∨ ((key :: rest).length - 1) % 2 ≠ 0) := by
        rw [List.length_cons]
        omega
      have handler : handleCommand context .zadd (key :: rest) = (do
          logAndReply context .zadd (key :: rest) .integer (← zaddLoop key 0 rest)) :=
        if_neg arity
      rw [handler, execute, runFrom_bind, logAndReply_db]
      exact isLeft

end Handler

/-- A set under `k` with the only member `m` that expires. -/
def expiringSet : HandlerState where
  db := Db.empty.put (asBytes "k") (some ⟨.set ((∅ : ByteSet).insert (asBytes "m")), some 9⟩)
  log := []
  scripts := fun _ => none

end Cache
end MuonJs
