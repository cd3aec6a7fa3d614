import MuonJs.Cache.Commands

/-!
# Error replies

A command that replies with an error leaves the live contents of its database
as they were, with one exception: `SMOVE` takes the member out of the source set
before it finds that the destination is no set.
-/

namespace MuonJs
namespace Cache

/-! ## What a handler keeps -/

namespace Handler

variable {clock : ℕ → UInt64}

/-- Every clock reading from the first count up to the second is at most the
time. -/
def ReadBy (clock : ℕ → UInt64) (first last : ℕ) (now : UInt64) : Prop :=
  ∀ tick, first ≤ tick → tick < last → clock tick ≤ now

theorem ReadBy.mono
    {first middle last : ℕ} {now : UInt64}
    (after : ReadBy clock first last now) (earlier : middle ≤ last) :
    ReadBy clock first middle now :=
  fun tick isLater before => after tick isLater (before.trans_le earlier)

/-- A handler that only reads keeps the live entries. -/
theorem runFrom_reads
    {handler : Handler α}
    (issues : handler.Issues fun call : HandlerCall => call.reads = true)
    {state : HandlerState} {tick : ℕ} {now : UInt64}
    (after : ReadBy clock tick (runFrom clock handler state tick).2.2 now) :
    (runFrom clock handler state tick).2.1.db.purge now = state.db.purge now := by
  induction handler generalizing state tick with
  | pure value => rfl
  | call request next ih =>
      have started : clock tick ≤ now :=
        after tick le_rfl (tick_le_runFrom (next _) _ (tick + 1))
      have rest := ih _ (issues.2 _)
        fun later isLater => after later (Nat.le_of_succ_le isLater)
      refine rest.trans ?_
      cases request with
      | db call => exact Call.purge_exec_reads issues.1 started state.db
      | log cmd args => cases issues.1
      | now => rfl
      | scripts op => rfl
      | check passes => rfl

/-- Logging leaves the database alone. -/
@[simp] theorem runFrom_logCmd_db
    (context : HandlerContext) (cmd : Command) (args : List Bytes)
    (state : HandlerState) (tick : ℕ) :
    (runFrom clock (logCmd context cmd args) state tick).2.1.db = state.db := by
  unfold logCmd
  split
  · rfl
  · split <;> rfl

end Handler

/-! ## Loops on one key -/

/-- Once the method succeeds at a key, methods for this kind of value succeed
there: it fails on no entry of the kind, and a success leaves such an entry. -/
structure EntryOp.Steady (kind : Value → Option β) (op : EntryOp) : Prop where
  succeeds : ∀ (now : UInt64) (entry : Option Entry),
    (∀ stored, entry = some stored → (kind stored.value).isSome = true) →
      op.failed (op.apply now entry).1 = false
  leaves : ∀ (now : UInt64) (entry : Option Entry),
    op.failed (op.apply now entry).1 = false →
      ∀ stored, (op.apply now entry).2 = some stored →
        (kind stored.value).isSome = true

namespace Shard

/-- A change that never fails succeeds on an entry of its kind. -/
theorem updateAs_succeeds
    {kind : Value → Option β} {wrap : β → Value}
    {change : β → Fallible α × Option β}
    {missing : Fallible α × Option Value}
    (succeeds : ∀ content, (change content).1.isError = false)
    (succeedsMissing : missing.1.isError = false)
    {now : UInt64} {entry : Option Entry}
    (isKind : ∀ stored, entry = some stored → (kind stored.value).isSome = true) :
    (updateAs kind wrap change missing now entry).1.isError = false := by
  unfold updateAs live
  cases found : entry.filter (Entry.live now) with
  | none => exact succeedsMissing
  | some stored =>
      have isSome := isKind stored (Option.filter_eq_some_iff.mp found).1
      obtain ⟨content, isContent⟩ := Option.isSome_iff_exists.mp isSome
      dsimp only
      rw [isContent]
      exact succeeds content

/-- A change that succeeds leaves an entry of its kind. -/
theorem updateAs_leaves
    {kind : Value → Option β} {wrap : β → Value}
    {change : β → Fallible α × Option β}
    {missing : Fallible α × Option Value}
    (wraps : ∀ content, (kind (wrap content)).isSome = true)
    (wrapsMissing : ∀ value, missing.2 = some value → (kind value).isSome = true)
    {now : UInt64} {entry : Option Entry}
    (succeeds : (updateAs kind wrap change missing now entry).1.isError = false)
    (stored : Entry)
    (left : (updateAs kind wrap change missing now entry).2 = some stored) :
    (kind stored.value).isSome = true := by
  unfold updateAs live at succeeds left
  cases found : entry.filter (Entry.live now) with
  | none =>
      rw [found] at left
      obtain ⟨value, isMissing, rfl⟩ := Option.map_eq_some_iff.mp left
      exact wrapsMissing value isMissing
  | some old =>
      rw [found] at succeeds left
      dsimp only at succeeds left
      cases isContent : kind old.value with
      | none => rw [isContent] at succeeds; cases succeeds
      | some content =>
          rw [isContent] at left
          obtain ⟨new, -, rfl⟩ := Option.map_eq_some_iff.mp left
          exact wraps new

end Shard

namespace EntryOp

theorem zadd_steady (score : F64) (member : Bytes) :
    (EntryOp.zadd score member).Steady Value.asZSet where
  succeeds _ _ := Shard.updateAs_succeeds (fun _ => rfl) rfl
  leaves _ _ := Shard.updateAs_leaves (fun _ => rfl) fun _ isMissing => by
    cases isMissing
    rfl

theorem listPop_steady (left : Bool) :
    (EntryOp.listPop left).Steady Value.asList where
  succeeds _ _ := Shard.updateAs_succeeds (fun _ => by split <;> rfl) rfl
  leaves _ _ := Shard.updateAs_leaves (fun _ => rfl) fun _ isMissing => by
    cases isMissing

theorem hashSetRef_steady (field value : Bytes) :
    (EntryOp.hashSetRef field value).Steady Value.asHash where
  succeeds now entry isHash := by
    change (Shard.hashSetRef field value now entry).1.isError = false
    unfold Shard.hashSetRef Shard.hashSetWith
    cases entry with
    | none => rfl
    | some stored =>
        obtain ⟨fields, isFields⟩ :=
          Option.isSome_iff_exists.mp (isHash stored rfl)
        dsimp only
        rw [isFields]
        split
        · rfl
        · dsimp only
          split <;> rfl
  leaves now entry succeeds stored left := by
    change (Shard.hashSetRef field value now entry).1.isError = false at succeeds
    change (Shard.hashSetRef field value now entry).2 = some stored at left
    unfold Shard.hashSetRef Shard.hashSetWith at succeeds left
    cases entry with
    | none => cases left; rfl
    | some old =>
        dsimp only at succeeds left
        split at left
        · cases left
          rfl
        · rename_i isFresh
          rw [if_neg isFresh] at succeeds
          cases isFields : old.value.asHash with
          | none => rw [isFields] at succeeds; cases succeeds
          | some fields =>
              rw [isFields] at left
              cases left
              rfl

end EntryOp

/-- The handler calls methods for one kind of value at one key, and stops at the
first failure. -/
inductive Handler.Loops (key : Bytes) (kind : Value → Option β) :
    Handler (Fallible α) → Prop
  | done (value : α) : Handler.Loops key kind (.pure (.ok value))
  | step (op : EntryOp) (next : op.Result → Handler (Fallible α))
      (steady : op.Steady kind)
      (continues : ∀ result, op.failed result = false →
        Handler.Loops key kind (next result))
      (stops : ∀ result, op.failed result = true →
        next result = .pure (.error ())) :
      Handler.Loops key kind
        (@Program.call HandlerCall.signature _ (.db (.entry key op)) next)

namespace Handler

variable {clock : ℕ → UInt64}

theorem lookup_exec_entry
    (key : Bytes) (op : EntryOp) (now : UInt64) (state : HandlerState) :
    ((HandlerCall.db (.entry key op)).exec now state).2.db.lookup key =
      (op.apply now (state.db.lookup key)).2 := by
  rw [HandlerCall.exec, Call.exec, Db.lookup_access, if_pos rfl]

/-- On an entry of its kind a loop does not fail. -/
theorem Loops.succeeds
    {key : Bytes} {kind : Value → Option β} {handler : Handler (Fallible α)}
    (loops : Loops key kind handler)
    {state : HandlerState} (tick : ℕ)
    (isKind : ∀ stored, state.db.lookup key = some stored →
      (kind stored.value).isSome = true) :
    (runFrom clock handler state tick).1.isError = false := by
  induction loops generalizing state tick with
  | done value => rfl
  | step op next steady continues stops ih =>
      have succeeds := steady.succeeds (clock tick) _ isKind
      rw [runFrom_call]
      apply ih _ succeeds
      exact fun stored => steady.leaves (clock tick) _ succeeds stored ∘
        (lookup_exec_entry key op (clock tick) state).symm.trans

/-- A loop that fails keeps the live entries: it fails at its first call. -/
theorem Loops.keeps
    {key : Bytes} {kind : Value → Option β} {handler : Handler (Fallible α)}
    (loops : Loops key kind handler)
    {state : HandlerState} {tick : ℕ} {now : UInt64}
    (fails : (runFrom clock handler state tick).1.isError = true)
    (after : ReadBy clock tick (runFrom clock handler state tick).2.2 now) :
    (runFrom clock handler state tick).2.1.db.purge now = state.db.purge now := by
  cases loops with
  | done value => cases fails
  | step op next steady continues stops =>
      have started : clock tick ≤ now :=
        after tick le_rfl (tick_le_runFrom (next _) _ (tick + 1))
      rw [runFrom_call] at fails ⊢
      cases failed : op.failed (op.apply (clock tick) (state.db.lookup key)).1 with
      | true =>
          have stop := stops _ failed
          change (runFrom clock (next (op.apply (clock tick)
            (state.db.lookup key)).1) _ _).2.1.db.purge now = _
          rw [stop]
          exact Call.purge_exec_failed failed started
      | false =>
          refine absurd
            (fails.symm.trans ((continues _ failed).succeeds (tick + 1) ?_)) nofun
          exact fun stored => steady.leaves (clock tick) _ failed stored ∘
            (lookup_exec_entry key op (clock tick) state).symm.trans

theorem hsetLoop_loops (key : Bytes) (added : Int64) (pairs : List Bytes) :
    Loops key Value.asHash (hsetLoop key added pairs) := by
  fun_induction hsetLoop key added pairs with
  | case1 added field value rest ih =>
      refine .step _ _ (EntryOp.hashSetRef_steady field value)
        (Fallible.forall_ok ih) (Fallible.forall_error rfl)
  | case2 _ added => exact .done added

theorem zaddLoop_loops (key : Bytes) (added : Int64) (pairs : List Bytes) :
    Loops key Value.asZSet (zaddLoop key added pairs) := by
  fun_induction zaddLoop key added pairs with
  | case1 added score member rest ih =>
      refine .step _ _ (EntryOp.zadd_steady _ member)
        (Fallible.forall_ok ih) (Fallible.forall_error rfl)
  | case2 _ added => exact .done added

/-- Turning the value of a loop into another keeps it a loop. -/
theorem Loops.andThen_ok
    {key : Bytes} {kind : Value → Option β} {handler : Handler (Fallible α)}
    (loops : Loops key kind handler) (f : α → γ) :
    Loops key kind
      (Program.andThen handler fun value => .pure (.ok (f value))) := by
  induction loops with
  | done value => exact .done (f value)
  | step op next steady continues stops ih =>
      refine .step op _ steady ih fun result fails => ?_
      rw [stops result fails]
      rfl

theorem popLoop_loops (key : Bytes) (left : Bool) (count : ℕ) :
    Loops key Value.asList (popLoop key left count) := by
  induction count with
  | zero => exact .done []
  | succ count ih =>
      refine .step _ _ (EntryOp.listPop_steady left)
        (fun result succeeds => ?_) fun result fails => ?_
      · match result with
        | .ok (some value) => exact ih.andThen_ok fun values => value :: values
        | .ok none => exact .done []
        | .error () => cases succeeds
      · cases result with
        | ok popped => cases fails
        | error reason => rfl

end Handler

/-! ## SMOVE -/

namespace Db

variable (db : Db) (now : UInt64) (source dest member : Bytes)

/-- The database of `set_move` after its two expiry checks. -/
def settled : Db := (db.dropExpired now source).dropExpired now dest

theorem purge_settled : (db.settled now source dest).purge now = db.purge now := by
  rw [settled, purge_dropExpired, purge_dropExpired]

theorem lookup_settled_source :
    (db.settled now source dest).lookup source = db.visible now source := by
  rw [settled, lookup_dropExpired, lookup_dropExpired, lookup_dropExpired]
  by_cases same : dest = source
  · simp [same, visible, Option.filter_filter]
  · simp [same, visible]

theorem lookup_settled_dest :
    (db.settled now source dest).lookup dest = db.visible now dest := by
  rw [settled, lookup_dropExpired, if_pos rfl, lookup_dropExpired]
  by_cases same : source = dest
  · simp [same, visible, Option.filter_filter]
  · simp [same, visible]

variable {db now source dest member}

/-- The source is a live set with the member. -/
def HasMember (db : Db) (now : UInt64) (source member : Bytes) : Prop :=
  ∃ entry members, db.visible now source = some entry ∧
    entry.value.asSet = some members ∧ members.contains member = true

theorem setMove_eq :
    db.setMove now source dest member =
      match (db.settled now source dest).access source
        (Shard.takeMember member) with
      | (.ok true, db) => db.access dest (Shard.addMember member)
      | (result, db) => (result, db) := rfl

/-- From a set without the member nothing is taken. -/
theorem takeMember_of_not_hasMember
    (lacks : ¬db.HasMember now source member) :
    (Shard.takeMember member (db.visible now source)).2 = db.visible now source ∧
      (Shard.takeMember member (db.visible now source)).1 ≠ .ok true := by
  unfold Shard.takeMember
  cases found : db.visible now source with
  | none =>
      refine ⟨rfl, fun same => ?_⟩
      cases same
  | some entry =>
      dsimp only
      cases isSet : entry.value.asSet with
      | none =>
          refine ⟨rfl, fun same => ?_⟩
          cases same
      | some members =>
          dsimp only
          split
          · rename_i isMember
            exact absurd ⟨entry, members, found, isSet, isMember⟩ lacks
          · refine ⟨rfl, fun same => ?_⟩
            cases same

/-- A move from a set without the member goes no further than the source. -/
theorem setMove_of_not_hasMember
    (lacks : ¬db.HasMember now source member) :
    (db.setMove now source dest member).1 ≠ .ok true ∧
      (db.setMove now source dest member).2 =
        ((db.settled now source dest).access source (Shard.takeMember member)).2 := by
  rw [setMove_eq]
  have notMoved : ((db.settled now source dest).access source
      (Shard.takeMember member)).1 ≠ .ok true := by
    rw [access_result, lookup_settled_source]
    exact (takeMember_of_not_hasMember lacks).2
  generalize (db.settled now source dest).access source
    (Shard.takeMember member) = taken at notMoved
  obtain ⟨result, after⟩ := taken
  cases result with
  | ok isMember =>
      cases isMember with
      | true => exact absurd rfl notMoved
      | false => exact ⟨notMoved, rfl⟩
  | error reason => exact ⟨notMoved, rfl⟩

/-- A move from a set without the member keeps the live entries. -/
theorem purge_setMove_of_not_hasMember
    (lacks : ¬db.HasMember now source member) :
    (db.setMove now source dest member).2.purge now = db.purge now := by
  rw [(setMove_of_not_hasMember lacks).2, ← purge_settled db now source dest]
  apply purge_access
  rw [lookup_settled_source, (takeMember_of_not_hasMember lacks).1]

/-- The member leaves the source set: what is stored there afterwards, without
or with other members, is not what was there. -/
theorem takeMember_of_mem
    {entry : Entry} {members : ByteSet} {member : Bytes}
    (isSet : entry.value.asSet = some members)
    (isMember : members.contains member = true) :
    (Shard.takeMember member (some entry)).1 = .ok true ∧
      (Shard.takeMember member (some entry)).2 ≠ some entry ∧
      ∀ stored, (Shard.takeMember member (some entry)).2 = some stored →
        (stored.value.asSet).isSome = true := by
  unfold Shard.takeMember
  dsimp only
  rw [isSet]
  dsimp only
  rw [if_pos isMember]
  refine ⟨rfl, ?_, ?_⟩
  · dsimp only
    split
    · nofun
    · intro same
      rw [Option.some.injEq] at same
      have sameSet := congrArg (fun stored : Entry => stored.value.asSet) same
      rw [isSet] at sameSet
      change some (members.erase member) = some members at sameSet
      rw [Option.some.injEq] at sameSet
      have absent : (members.erase member).contains member = false := by simp
      rw [sameSet, isMember] at absent
      cases absent
  · intro stored left
    dsimp only at left
    split at left
    · cases left
    · cases left
      rfl

theorem addMember_eq_error_iff (member : Bytes) (entry : Option Entry) :
    (Shard.addMember member entry).1 = .error () ↔
      ∃ stored, entry = some stored ∧ stored.value.asSet = none := by
  unfold Shard.addMember
  cases entry with
  | none => exact ⟨nofun, nofun⟩
  | some stored =>
      dsimp only
      cases isSet : stored.value.asSet with
      | none => exact ⟨fun _ => ⟨stored, rfl, isSet⟩, fun _ => rfl⟩
      | some members =>
          refine ⟨nofun, ?_⟩
          rintro ⟨_, isStored, notSet⟩
          cases isStored
          rw [isSet] at notSet
          cases notSet

/-- A member that is there is taken, and the destination gets its turn. -/
theorem setMove_eq_of_hasMember
    (has : db.HasMember now source member) :
    db.setMove now source dest member =
      ((db.settled now source dest).access source
        (Shard.takeMember member)).2.access dest (Shard.addMember member) := by
  obtain ⟨entry, members, found, isSet, isMember⟩ := has
  rw [setMove_eq]
  have isTaken : ((db.settled now source dest).access source
      (Shard.takeMember member)).1 = .ok true := by
    rw [access_result, lookup_settled_source, found]
    exact (takeMember_of_mem isSet isMember).1
  generalize (db.settled now source dest).access source
    (Shard.takeMember member) = step at isTaken
  obtain ⟨result, after⟩ := step
  obtain rfl : result = .ok true := isTaken
  rfl

/-- A move of a member fails exactly when the destination holds a live value
that is no set, and then the member is gone from the source. -/
theorem setMove_of_hasMember
    (has : db.HasMember now source member) :
    ((db.setMove now source dest member).1 = .error () ↔
        ∃ entry, db.visible now dest = some entry ∧ entry.value.asSet = none) ∧
      ((db.setMove now source dest member).1 = .error () →
        (db.setMove now source dest member).2.visible now source ≠
          db.visible now source) := by
  rw [setMove_eq_of_hasMember has]
  obtain ⟨entry, members, found, isSet, isMember⟩ := has
  obtain ⟨taken, changed, leavesSet⟩ := takeMember_of_mem isSet isMember
  have atDest : ((db.settled now source dest).access source
      (Shard.takeMember member)).2.lookup dest =
        if source = dest then (Shard.takeMember member (some entry)).2
        else db.visible now dest := by
    rw [lookup_access, lookup_settled_source, lookup_settled_dest, found]
  have failsIff := addMember_eq_error_iff member
    (((db.settled now source dest).access source
      (Shard.takeMember member)).2.lookup dest)
  have sourceIsSet : source = dest → ¬∃ stored,
      (Shard.takeMember member (some entry)).2 = some stored ∧
        stored.value.asSet = none := by
    rintro - ⟨stored, left, notSet⟩
    have isSome := leavesSet stored left
    rw [notSet] at isSome
    cases isSome
  constructor
  · rw [access_result, failsIff, atDest]
    by_cases same : source = dest
    · rw [if_pos same]
      refine ⟨fun fails => absurd fails (sourceIsSet same), ?_⟩
      rintro ⟨stored, isDest, notSet⟩
      rw [← same, found] at isDest
      cases isDest
      rw [isSet] at notSet
      cases notSet
    · rw [if_neg same]
  · intro fails
    rw [access_result, failsIff, atDest] at fails
    have different : source ≠ dest := by
      intro same
      rw [if_pos same] at fails
      exact sourceIsSet same fails
    rw [visible, lookup_access, if_neg different.symm, lookup_access, if_pos rfl,
      lookup_settled_source, found]
    intro unchanged
    cases left : (Shard.takeMember member (some entry)).2 with
    | none => rw [left] at unchanged; cases unchanged
    | some stored =>
        rw [left] at unchanged
        have isStored := (Option.filter_eq_some_iff.mp unchanged).1
        exact changed (left.trans isStored)

end Db

/-! ## Commands -/

/-- The command moves a member of a live set to a key with a live value that is
no set. -/
def MovesToWrongType (now : UInt64) (cmd : Command) (args : List Bytes)
    (db : Db) : Prop :=
  cmd = .smove ∧ ∃ source dest member rest,
    args = source :: dest :: member :: rest ∧
      db.HasMember now source member ∧
      ∃ entry, db.visible now dest = some entry ∧ entry.value.asSet = none

/-- If the reply is an error, the live contents are what they were, at every
time from the last clock reading on. -/
def ErrorAtomic (clock : ℕ → UInt64) (context : HandlerContext) (cmd : Command)
    (args : List Bytes) (state : HandlerState) : Prop :=
  let outcome := Handler.execute clock (Handler.handleCommand context cmd args) state
  outcome.1.isError = true →
    ∀ now, (∀ tick < outcome.2.2, clock tick ≤ now) →
      ∀ key, outcome.2.1.db.visible now key = state.db.visible now key

namespace Handler

variable {clock : ℕ → UInt64} {context : HandlerContext} {args : List Bytes}

/-- An error reply of the handler leaves the live entries as they were. -/
def KeepsOnError (clock : ℕ → UInt64) (handler : Handler RespValue)
    (state : HandlerState) : Prop :=
  (execute clock handler state).1.isError = true →
    ∀ now, ReadBy clock 0 (execute clock handler state).2.2 now →
      (execute clock handler state).2.1.db.purge now = state.db.purge now

/-- What a command of one call replies and leaves. -/
theorem runFrom_change
    {cmd : Command} {key : Bytes} {op : EntryOp}
    {logs : op.Result → Bool} {respond : op.Result → RespValue}
    (state : HandlerState) (tick : ℕ) :
    (runFrom clock (change context cmd args key op logs respond) state tick).1 =
        respond (op.apply (clock tick) (state.db.lookup key)).1 ∧
      (runFrom clock (change context cmd args key op logs respond)
        state tick).2.1.db = (state.db.access key (op.apply (clock tick))).2 := by
  unfold change entry perform
  rw [Program.perform_bind, runFrom_call]
  dsimp only
  split
  · rw [runFrom_bind]
    exact ⟨rfl, runFrom_logCmd_db context cmd args _ _⟩
  · exact ⟨rfl, rfl⟩

theorem blobOrNull_isError (value : Option Bytes) :
    (RespValue.blobOrNull value).isError = false := by
  cases value <;> rfl

/-- `SET` replies with an error only before its call. -/
theorem keepsOnError_set (state : HandlerState) :
    KeepsOnError clock (set context args) state := by
  intro isError now after
  unfold execute set at isError after ⊢
  split at isError
  · simp only [runFrom_bind] at isError
    cases isError
  · split at isError
    · rfl
    · simp only [runFrom_bind] at isError
      cases isError
    · simp only [runFrom_bind] at isError
      cases isError

theorem logAndReply_isError
    {cmd : Command} {result : Fallible Int64} {state : HandlerState} {tick : ℕ}
    (isError : (runFrom clock (logAndReply context cmd args .integer result)
      state tick).1.isError = true) :
    result.isError = true := by
  cases result with
  | error reason => rfl
  | ok value =>
      unfold logAndReply at isError
      rw [runFrom_bind] at isError
      cases isError

theorem logAndReply_db
    (cmd : Command) (result : Fallible Int64) (state : HandlerState) (tick : ℕ) :
    (runFrom clock (logAndReply context cmd args .integer result)
      state tick).2.1.db = state.db := by
  cases result with
  | error reason => rfl
  | ok value =>
      unfold logAndReply
      rw [runFrom_bind]
      exact runFrom_logCmd_db context cmd args state tick

/-- `HSET` and `ZADD`: a loop, then the reply. -/
theorem keepsOnError_logAndReply
    {key : Bytes} {kind : Value → Option β} {loop : Handler (Fallible Int64)}
    (loops : Loops key kind loop) (cmd : Command) (state : HandlerState) :
    KeepsOnError clock (do logAndReply context cmd args .integer (← loop))
      state := by
  intro isError now after
  rw [execute, runFrom_bind] at isError after ⊢
  have fails := logAndReply_isError isError
  rw [logAndReply_db]
  exact loops.keeps fails (after.mono (tick_le_runFrom _ _ _))

theorem runFrom_smove
    (source dest member : Bytes) (state : HandlerState) (tick : ℕ) :
    (runFrom clock (smove context args source dest member) state tick).1 =
        orWrongType .flag (state.db.setMove (clock tick) source dest member).1 ∧
      (runFrom clock (smove context args source dest member) state tick).2.1.db =
        (state.db.setMove (clock tick) source dest member).2 ∧
      ((state.db.setMove (clock tick) source dest member).1 = .error () →
        (runFrom clock (smove context args source dest member) state tick).2.2 =
          tick + 1) := by
  unfold smove perform
  rw [Program.perform_bind, runFrom_call]
  dsimp only
  split
  · rename_i moved
    rw [runFrom_bind]
    refine ⟨rfl, runFrom_logCmd_db context .smove args _ _, fun fails => ?_⟩
    change okAnd id (state.db.setMove (clock tick) source dest member).1 = true at moved
    rw [fails] at moved
    cases moved
  · exact ⟨rfl, rfl, fun _ => rfl⟩

theorem keepsOnError_pop
    (cmd : Command) (key count : Bytes) (state : HandlerState) :
    KeepsOnError clock (pop context cmd [key, count]) state := by
  intro isError now after
  unfold execute pop at isError after ⊢
  dsimp only at isError after ⊢
  by_cases notPositive : (parseI64 count).getD 0 ≤ 0
  · rw [if_pos notPositive]
    rfl
  · rw [if_neg notPositive] at isError after ⊢
    rw [runFrom_bind] at isError after ⊢
    have loopAfter := after.mono (tick_le_runFrom _ _ _)
    split at isError
    · rename_i fails
      exact (popLoop_loops key _ _).keeps (Fallible.isError_iff.mpr fails) loopAfter
    · cases isError
    · rw [runFrom_bind] at isError
      cases isError

/-- Every command keeps the live entries when it replies with an error, except
for a move to the wrong type. -/
theorem Shape.keepsOnError
    {cmd : Command} {handler : Handler RespValue}
    (shape : Shape context args cmd handler)
    {state : HandlerState}
    (movesRight : ¬MovesToWrongType (clock 0) cmd args state.db) :
    KeepsOnError clock handler state := by
  cases shape with
  | reading issues =>
      exact fun _ now after => runFrom_reads (issues.mono HandlerCall.reads_of_queries) after
  | change key op logs respond errors =>
      intro isError now after
      obtain ⟨isReply, isDb⟩ := runFrom_change state 0
      have started : clock 0 ≤ now :=
        after 0 le_rfl (tick_le_runFrom (_ : Handler RespValue) _ 1)
      rw [isReply] at isError
      rw [isDb]
      exact Call.purge_exec_failed (errors _ isError) started
  | set => exact keepsOnError_set state
  | mset | del | flushdb =>
      intro isError
      simp only [execute, runFrom_bind] at isError
      cases isError
  | getset key value rest isArgs =>
      intro isError now after
      unfold Handler.getset entry perform execute at isError after ⊢
      rw [Program.perform_bind, runFrom_call] at isError after ⊢
      have started : clock 0 ≤ now := after 0 le_rfl (tick_le_runFrom _ _ 1)
      split at isError
      · exact Call.purge_exec_reads rfl started state.db
      · rw [runFrom_bind, runFrom_bind] at isError
        exact absurd (isError.symm.trans (blobOrNull_isError _)) nofun
  | hset key pairs isArgs =>
      exact keepsOnError_logAndReply (hsetLoop_loops key 0 pairs) .hset state
  | zadd key pairs isArgs =>
      exact keepsOnError_logAndReply (zaddLoop_loops key 0 pairs) .zadd state
  | pop key count isArgs isPop =>
      subst isArgs
      exact keepsOnError_pop cmd key count state
  | smove source dest member rest isArgs =>
      intro isError now after
      obtain ⟨isReply, isDb, -⟩ := runFrom_smove source dest member state 0
      have started : clock 0 ≤ now :=
        after 0 le_rfl (tick_le_runFrom (_ : Handler RespValue) _ 1)
      rw [isReply] at isError
      rw [isDb]
      have fails := Fallible.isError_iff.mp (isError_orError (fun _ => rfl) isError)
      by_cases has : state.db.HasMember (clock 0) source member
      · have wrongType := (Db.setMove_of_hasMember has).1.mp fails
        exact absurd ⟨rfl, source, dest, member, rest, isArgs, has, wrongType⟩
          movesRight
      · exact Db.purge_eq_later (Db.purge_setMove_of_not_hasMember has) started

end Handler

/-- A move to the wrong type replies with an error and loses the member. -/
theorem not_errorAtomic
    {clock : ℕ → UInt64} (context : HandlerContext) {cmd : Command}
    {args : List Bytes} {state : HandlerState}
    (moves : MovesToWrongType (clock 0) cmd args state.db) :
    ¬ErrorAtomic clock context cmd args state := by
  obtain ⟨rfl, source, dest, member, rest, rfl, has, wrongType⟩ := moves
  intro atomic
  have fails := (Db.setMove_of_hasMember has).1.mpr wrongType
  obtain ⟨isReply, isDb, oneCall⟩ :=
    @Handler.runFrom_smove clock context (source :: dest :: member :: rest)
      source dest member state 0
  have isError : (Handler.execute clock (Handler.smove context
      (source :: dest :: member :: rest) source dest member)
      state).1.isError = true := by
    rw [isReply, fails]
    rfl
  have onlyReading : ∀ tick < (Handler.execute clock (Handler.smove context
      (source :: dest :: member :: rest) source dest member) state).2.2,
      clock tick ≤ clock 0 := by
    intro tick before
    rw [oneCall fails] at before
    rw [Nat.lt_one_iff.mp before]
    exact UInt64.le_refl _
  have kept := atomic isError (clock 0) onlyReading source
  change (Handler.execute clock (Handler.smove context _ source dest member)
    state).2.1.db.visible (clock 0) source = _ at kept
  rw [isDb] at kept
  exact (Db.setMove_of_hasMember has).2 fails kept

/-- A command replies with an error and yet changes the live contents exactly
when it moves a member to a key of the wrong type. -/
theorem errorAtomic_iff
    (clock : ℕ → UInt64) (context : HandlerContext) (cmd : Command)
    (args : List Bytes) (state : HandlerState) :
    ErrorAtomic clock context cmd args state ↔
      ¬MovesToWrongType (clock 0) cmd args state.db := by
  constructor
  · exact fun atomic moves => not_errorAtomic context moves atomic
  · intro movesRight isError now after key
    apply Db.visible_eq_of_purge_eq
    exact Handler.handleCommand_shape.keepsOnError movesRight isError now
      fun tick _ => after tick

/-- A set with the member `m` under `s` and a string under `d`. -/
def setAndString : HandlerState where
  db := (Db.empty.put (asBytes "s")
    (some ⟨.set ((∅ : ByteSet).insert (asBytes "m")), none⟩)).put (asBytes "d")
      (some ⟨.string (asBytes "x"), none⟩)
  log := []
  scripts := fun _ => none

/-- `SMOVE s d m` on a string under `d` loses the member. -/
theorem not_always_errorAtomic :
    ¬∀ (clock : ℕ → UInt64) (context : HandlerContext) (cmd : Command)
      (args : List Bytes) (state : HandlerState),
      ErrorAtomic clock context cmd args state := by
  intro always
  apply @not_errorAtomic (fun _ => 0) ⟨none, false⟩ .smove
    [asBytes "s", asBytes "d", asBytes "m"] setAndString _ (always _ _ _ _ _)
  refine ⟨rfl, asBytes "s", asBytes "d", asBytes "m", [], rfl, ?_, ?_⟩
  · refine ⟨⟨.set ((∅ : ByteSet).insert (asBytes "m")), none⟩, _, ?_, rfl, ?_⟩
    · rw [Db.visible, setAndString, Db.lookup_put, if_neg (by decide),
        Db.lookup_put, if_pos rfl]
      rfl
    · simp
  · refine ⟨⟨.string (asBytes "x"), none⟩, ?_, rfl⟩
    rw [Db.visible, setAndString, Db.lookup_put, if_pos rfl]
    rfl

end Cache
end MuonJs
