import MuonJs.Cache.Aggregates
import MuonJs.Cache.Errors
import MuonJs.Cache.Removal

/-!
# Executing the log

A command is logged when its handler finds that it changed something.  The
logged commands of a run, executed from the same database at the clock readings
of their requests, leave the live entries that the run leaves.
-/

namespace MuonJs
namespace Cache

/-! ## Methods that change nothing -/

namespace Shard

theorem lenI64_pos {items : List α} (hasItems : items ≠ []) (fits : items.length < 2 ^ 63) :
    0 < lenI64 items := by
  have positive := List.length_pos_of_ne_nil hasItems
  rw [Int64.lt_iff_toInt_lt, toInt_lenI64 fits, Int64.toInt_zero]
  omega

theorem removeFront_eq_zero {count : ℕ} {value : Bytes} {items : List Bytes} :
    (removeFront value count items).1 = 0 → (removeFront value count items).2 = items := by
  fun_induction removeFront value count items with
  | case1 | case2 => exact fun _ => rfl
  | case3 count rest removed kept isRest => exact fun isZero => absurd isZero (Nat.succ_ne_zero _)
  | case4 count item rest differs removed kept isRest ih =>
      intro isZero
      rw [isRest] at ih
      exact congrArg (item :: ·) (ih isZero)

/-- When no occurrence is counted, the list stays. -/
theorem removeMatches_of_none
    {count : Int64} {value : Bytes} {items : List Bytes} (fits : items.length < 2 ^ 63)
    (none : ¬0 < Int64.ofNat (removeMatches count value items).1) :
    (removeMatches count value items).2 = items := by
  have total := removeMatches_length count value items
  rw [Int64.lt_iff_toInt_lt, Int64.toInt_ofNat_of_lt (by omega), Int64.toInt_zero] at none
  have isZero : (removeMatches count value items).1 = 0 := by omega
  rw [removeMatches] at isZero ⊢
  split_ifs at isZero ⊢
  · exact removeFront_eq_zero isZero
  · exact removeFront_eq_zero isZero
  · exact (congrArg List.reverse (removeFront_eq_zero isZero)).trans items.reverse_reverse

/-- The loop of `zrem` counts up, and where it counts nothing it removes nothing. -/
theorem foldl_removeScores
    (members : List Bytes) {removed : Int64} {items : ByteMap F64}
    (positive : 0 ≤ removed.toInt) (fits : removed.toInt + items.size < 2 ^ 63) :
    let outcome := members.foldl
      (fun (removed, items) member =>
        (if Std.ExtTreeMap.contains items member then removed + 1 else removed,
          items.erase member)) (removed, items)
    removed.toInt ≤ outcome.1.toInt ∧ (outcome.1.toInt = removed.toInt → outcome.2 = items) := by
  induction members generalizing removed items with
  | nil => exact ⟨le_rfl, fun _ => rfl⟩
  | cons member members ih =>
      rw [List.foldl_cons]
      dsimp only
      have smaller := @Std.ExtTreeMap.size_erase _ _ _ items _ member
      by_cases isMember : items.contains member = true
      · have hasMember : items.size ≠ 0 := fun isEmpty => by
          rw [Std.ExtTreeMap.eq_empty_iff_size_eq_zero.mpr isEmpty] at isMember
          simp at isMember
        have isNext := toInt_add_one removed (by omega)
        rw [if_pos isMember] at smaller ⊢
        have grows := (@ih (removed + 1) (items.erase member) (by omega) (by omega)).1
        exact ⟨le_trans (by omega) grows, fun same => absurd (grows.trans_eq same) (by omega)⟩
      · have absent : items.erase member = items := by
          apply Std.ExtTreeMap.ext_getElem?
          intro probe
          rw [ByteMap.lookup_erase]
          by_cases same : member = probe
          · rw [if_pos same, ← same, Std.ExtTreeMap.getElem?_eq_none]
            exact isMember
          · rw [if_neg same]
        rw [if_neg isMember, absent]
        exact ih positive fits

theorem removeScores_of_none
    {members : List Bytes} {items : ByteMap F64} (fits : items.size < 2 ^ 63)
    (none : ¬0 < (removeScores members items).1) :
    (removeScores members items).2 = items := by
  obtain ⟨grows, same⟩ := @foldl_removeScores members 0 items le_rfl
    (by rw [Int64.toInt_zero]; omega)
  rw [Int64.lt_iff_toInt_lt, Int64.toInt_zero] at none
  exact same (le_antisymm (not_lt.mp none) grows)

/-- A change that keeps the value wherever it is idle leaves the live entry. -/
theorem updateAs_idle
    {kind : Value → Option β} {wrap : β → Value}
    {change : β → Fallible α × Option β} {missing : Fallible α × Option Value}
    {idle : Fallible α → Prop} {now : UInt64} {entry : Option Entry}
    (wraps : ∀ {value content}, kind value = some content → value = wrap content)
    (keeps : ∀ content expiresAt, entry = some ⟨wrap content, expiresAt⟩ →
      Entry.live now ⟨wrap content, expiresAt⟩ = true → idle (change content).1 →
        (change content).2 = some content)
    (keepsMissing : idle missing.1 → missing.2 = none)
    (isIdle : idle (updateAs kind wrap change missing now entry).1) :
    (updateAs kind wrap change missing now entry).2.filter (Entry.live now) =
      entry.filter (Entry.live now) := by
  cases found : entry.filter (Entry.live now) with
  | none =>
      rw [updateAs_of_absent found] at isIdle ⊢
      dsimp only
      rw [keepsMissing isIdle]
      rfl
  | some stored =>
      obtain ⟨rfl, alive⟩ := Option.filter_eq_some_iff.mp found
      cases isKind : kind stored.value with
      | none =>
          rw [updateAs, live, found]
          dsimp only
          rw [isKind]
          exact found
      | some content =>
          obtain ⟨value, expiresAt⟩ := stored
          obtain rfl := wraps isKind
          rw [updateAs_of_live alive isKind] at isIdle ⊢
          dsimp only
          rw [keeps content expiresAt rfl alive isIdle]
          exact found

end Shard

namespace Value

/-- The value is no list and no sorted set with `2 ^ 63` items or more. -/
def Sized : Value → Prop
  | .list items => items.length < 2 ^ 63
  | .zset scores => scores.size < 2 ^ 63
  | _ => True

theorem eq_list {value : Value} {items : List Bytes} (isList : value.asList = some items) :
    value = .list items := by
  cases value with
  | list stored => cases isList; rfl
  | _ => cases isList

theorem eq_hash {value : Value} {fields : HashStore} (isHash : value.asHash = some fields) :
    value = .hash fields := by
  cases value with
  | hash stored => cases isHash; rfl
  | _ => cases isHash

theorem eq_zset {value : Value} {scores : ByteMap F64}
    (isZSet : value.asZSet = some scores) :
    value = .zset scores := by
  cases value with
  | zset stored => cases isZSet; rfl
  | _ => cases isZSet

end Value

/-- The result counts nothing. -/
def Uncounted (result : Fallible Int64) : Prop :=
  (!Handler.okAnd (fun count => 0 < count) result) = true

theorem uncounted_ok_iff {count : Int64} : Uncounted (.ok count) ↔ ¬0 < count := by
  simp [Uncounted, Handler.okAnd]

/-- A change of a list counts the items of the new list, unless the new list is
the old one. -/
theorem Shard.updateAs_uncounted
    {change : List Bytes → Fallible Int64 × Option (List Bytes)}
    {now : UInt64} {entry : Option Entry}
    (counts : ∀ items, items ≠ [] → (change items).2 = some items ∨
      ∃ new, new ≠ [] ∧ change items = (.ok (lenI64 new), some new))
    (filled : Filled entry)
    (sizedAfter : ∀ stored,
      (updateAs Value.asList .list change (.ok 0, none) now entry).2 = some stored →
        stored.value.Sized)
    (idle : Uncounted (updateAs Value.asList .list change (.ok 0, none) now entry).1) :
    (updateAs Value.asList .list change (.ok 0, none) now entry).2.filter (Entry.live now) =
      entry.filter (Entry.live now) := by
  refine updateAs_idle Value.eq_list (fun items expiresAt isEntry alive unchanged => ?_)
    (fun _ => rfl) idle
  subst isEntry
  rcases counts items (filled _ rfl) with same | ⟨new, hasNew, isNew⟩
  · exact same
  · have fits : new.length < 2 ^ 63 := by
      refine sizedAfter ⟨.list new, expiresAt⟩ ?_
      rw [updateAs_of_live alive (asList_list items), isNew]
      rfl
    rw [isNew] at unchanged
    exact absurd (lenI64_pos hasNew fits) (uncounted_ok_iff.mp unchanged)

theorem Shard.listPop_idle
    {left : Bool} {now : UInt64} {entry : Option Entry} (filled : Filled entry)
    (idle : (!Handler.okAnd Option.isSome (listPop left now entry).1) = true) :
    (listPop left now entry).2.filter (Entry.live now) = entry.filter (Entry.live now) := by
  refine @updateAs_idle _ _ _ _ _ _
    (fun result => (!Handler.okAnd Option.isSome result) = true) _ _ Value.eq_list
    (fun items _ isEntry _ unchanged => ?_) (fun _ => rfl) idle
  have hasItems : items ≠ [] := filled _ isEntry
  split at unchanged
  · rw [List.head?_eq_some_head hasItems] at unchanged
    cases unchanged
  · rw [List.getLast?_eq_some_getLast hasItems] at unchanged
    cases unchanged

/-- A method that a command calls to change an entry, and that reports that it
changed nothing, leaves the live entry alone. -/
theorem EntryOp.apply_idle
    {op : EntryOp} {cmd : Command} (called : op.calledBy cmd = true)
    {now : UInt64} {entry : Option Entry} (filled : Filled entry)
    (sized : ∀ stored, entry = some stored → stored.value.Sized)
    (sizedAfter : ∀ stored, (op.apply now entry).2 = some stored → stored.value.Sized)
    (idle : op.idle (op.apply now entry).1 = true) :
    (op.apply now entry).2.filter (Entry.live now) = entry.filter (Entry.live now) := by
  cases op with
  | remove | setExpireMs =>
      cases entry with
      | none => rfl
      | some stored => cases idle
  | setString | setStringRef => cases idle
  | persist =>
      change (!(Shard.persist now entry).1 == 1) = true at idle
      change (Shard.persist now entry).2.filter _ = _
      unfold Shard.persist Shard.live at idle ⊢
      cases found : entry.filter (Entry.live now) with
      | none => rfl
      | some stored =>
          rw [found] at idle
          cases expiry : stored.expiresAt with
          | none =>
              dsimp only
              rw [← expiry]
              exact Option.filter_some_pos (Option.filter_eq_some_iff.mp found).2
          | some ts => dsimp only at idle; rw [expiry] at idle; cases idle
  | setNx value =>
      change (!Handler.okAnd id (Shard.setNx value now entry).1) = true at idle
      change (Shard.setNx value now entry).2.filter _ = _
      unfold Shard.setNx Shard.live at idle ⊢
      cases found : entry.filter (Entry.live now) with
      | none => rw [found] at idle; cases idle
      | some stored => exact Option.filter_some_pos (Option.filter_eq_some_iff.mp found).2
  | hashSetNx field value =>
      refine @Shard.updateAs_idle _ _ _ _ _ _ (fun result => (!Handler.okAnd id result) = true)
        _ _ Value.eq_hash (fun fields _ _ _ unchanged => ?_) nofun idle
      by_cases present : fields.containsKey field = true
      · rw [if_pos present]
      · rw [if_neg present] at unchanged
        cases unchanged
  | listPop left => exact Shard.listPop_idle filled idle
  | listInsert before pivot value =>
      refine Shard.updateAs_uncounted (fun items hasItems => ?_) filled sizedAfter idle
      dsimp only
      split
      · refine .inr ⟨_, fun isEmpty => hasItems ?_, rfl⟩
        rw [← List.length_eq_zero_iff, ← Nat.le_zero, ← @List.length_nil Bytes, ← isEmpty]
        exact List.length_le_length_insertIdx
      · exact .inl rfl
  | listRem count value =>
      refine Shard.updateAs_idle Value.eq_list (fun items _ isEntry _ unchanged => ?_)
        (fun _ => rfl) (show Uncounted _ from idle)
      have hasItems : items ≠ [] := filled _ isEntry
      have same := Shard.removeMatches_of_none (sized _ isEntry) (uncounted_ok_iff.mp unchanged)
      dsimp only
      rw [same, Shard.unlessEmpty, if_neg (fun isEmpty => hasItems (List.isEmpty_iff.mp isEmpty))]
  | listPushX values left =>
      have hasValues : values.isEmpty = false := by
        rw [calledBy, Bool.and_eq_true, Bool.not_eq_true'] at called
        exact called.1
      exact Shard.updateAs_uncounted
        (fun items _ => .inr ⟨_, Shard.pushAll_ne_nil hasValues left items, rfl⟩)
        filled sizedAfter idle
  | zrem members =>
      refine Shard.updateAs_idle Value.eq_zset (fun scores _ isEntry _ unchanged => ?_)
        (fun _ => rfl) (show Uncounted _ from idle)
      have hasScores : scores ≠ ∅ := filled _ isEntry
      have same := Shard.removeScores_of_none (sized _ isEntry) (uncounted_ok_iff.mp unchanged)
      dsimp only
      rw [same, if_neg (fun isEmpty => hasScores (Std.ExtTreeMap.isEmpty_iff.mp isEmpty))]
  | _ => first | exact EntryOp.apply_failed _ now entry idle | cases called

/-! ## Logged and unlogged commands -/

theorem Shard.addMember_ne_false {member : Bytes} {entry : Option Entry} :
    (addMember member entry).1 ≠ .ok false := by
  unfold addMember
  cases entry with
  | none => nofun
  | some stored =>
      dsimp only
      split <;> nofun

/-- The context of a handler when the log is enabled. -/
def logging : HandlerContext := ⟨some true, false⟩

/-- Every list and sorted set of the database has a size that an `i64` holds. -/
def Db.Sized (db : Db) : Prop :=
  ∀ (key : Bytes) (stored : Entry), db.lookup key = some stored → stored.value.Sized

namespace Handler

variable {clock : ℕ → UInt64} {cmd : Command} {args : List Bytes}
  {state : HandlerState} {tick : ℕ}

/-- The handler makes no entry in the log. -/
def noEntry (call : HandlerCall) : Prop := ∀ cmd args, call ≠ .log cmd args

theorem noEntry_db (call : Call) : noEntry (.db call) := nofun

theorem noEntry_of_queries (call : HandlerCall) (isQuery : call.queries = true) :
    noEntry call := by
  rintro cmd args rfl
  cases isQuery

/-- A handler that does not log leaves the log. -/
theorem runFrom_log {handler : Handler α} (issues : handler.Issues noEntry) :
    (runFrom clock handler state tick).2.1.log = state.log := by
  refine @Program.run_preserves _ _ _ _ (·.1.log = state.log) _
    (fun request _ allowed same => ?_) handler issues (state, tick) rfl
  cases request with
  | log cmd args => exact absurd rfl (allowed cmd args)
  | _ => exact same

/-- The handler logs the command once, or it leaves the log and the live entries. -/
def LogsChanges (clock : ℕ → UInt64) (cmd : Command) (args : List Bytes)
    (handler : Handler RespValue) (state : HandlerState) : Prop :=
  let outcome := execute clock handler state
  outcome.2.1.log = state.log ++ [(cmd, args)] ∨
    outcome.2.1.log = state.log ∧
      ∀ now, ReadBy clock 0 outcome.2.2 now → outcome.2.1.db.purge now = state.db.purge now

/-- A handler that changes the database and then logs. -/
theorem logsChanges_of_logs
    {change : Handler α} (issues : change.Issues noEntry) (reply : α → RespValue) :
    LogsChanges clock cmd args (do
      let result ← change
      logCmd logging cmd args
      return reply result) state := by
  left
  rw [execute, runFrom_bind]
  exact congrArg (· ++ [(cmd, args)]) (runFrom_log issues)

/-- `HSET` and `ZADD`. -/
theorem logsChanges_logAndReply
    {key : Bytes} {kind : Value → Option β} {loop : Handler (Fallible Int64)}
    (loops : Loops key kind loop) (issues : loop.Issues noEntry) :
    LogsChanges clock cmd args
      (do logAndReply logging cmd args .integer (← loop)) state := by
  have sameLog := @runFrom_log clock state 0 _ loop issues
  rw [LogsChanges, execute, runFrom_bind]
  cases result : (runFrom clock loop state 0).1 with
  | ok value => exact .inl (congrArg (· ++ [(cmd, args)]) sameLog)
  | error reason =>
      exact .inr ⟨sameLog, fun now => loops.keeps (Fallible.isError_iff.mpr result)⟩

theorem runFrom_change_log
    {key : Bytes} {op : EntryOp} {logs : op.Result → Bool} {respond : op.Result → RespValue} :
    (runFrom clock (change logging cmd args key op logs respond) state tick).2.1.log =
      if logs (op.apply (clock tick) (state.db.lookup key)).1 = true then
        state.log ++ [(cmd, args)]
      else state.log := by
  unfold change entry perform
  rw [Program.perform_bind, runFrom_call]
  split
  case isTrue isLogged => exact (if_pos isLogged).symm
  case isFalse notLogged => exact (if_neg notLogged).symm

/-- A loop of `LPOP` or `RPOP` that takes nothing. -/
theorem popLoop_keeps
    {key : Bytes} {left : Bool} {count : ℕ} (noEmpty : state.db.NoEmpty)
    (takesNone : (runFrom clock (popLoop key left count) state tick).1 = .ok [])
    {now : UInt64}
    (after : ReadBy clock tick (runFrom clock (popLoop key left count) state tick).2.2 now) :
    (runFrom clock (popLoop key left count) state tick).2.1.db.purge now =
      state.db.purge now := by
  cases count with
  | zero => rfl
  | succ count =>
      have started : clock tick ≤ now := after tick le_rfl (tick_le_runFrom _ _ (tick + 1))
      unfold popLoop Program.andThen entry perform at takesNone ⊢
      rw [Program.perform_bind, runFrom_call] at takesNone ⊢
      cases popped : ((HandlerCall.db (.entry key (.listPop left))).exec (clock tick) state).1 with
      | error reason => rw [popped] at takesNone; cases takesNone
      | ok value =>
          rw [popped] at takesNone
          cases value with
          | some value =>
              dsimp only at takesNone
              rw [runFrom_bind] at takesNone
              split at takesNone <;> cases takesNone
          | none =>
              refine Db.purge_eq_later (Db.purge_access (Shard.listPop_idle (noEmpty key) ?_)) started
              exact congrArg (fun result => !okAnd Option.isSome result) popped

/-- A command is logged once, or it leaves the live entries as they were. -/
theorem Shape.logsChanges
    {handler : Handler RespValue} (shape : Shape logging args cmd handler)
    (movesRight : ¬MovesToWrongType (clock 0) cmd args state.db)
    (noEmpty : state.db.NoEmpty) (sized : state.db.Sized)
    (sizedAfter : (execute clock handler state).2.1.db.Sized) :
    LogsChanges clock cmd args handler state := by
  cases shape with
  | reading issues =>
      exact .inr ⟨runFrom_log (issues.mono noEntry_of_queries), fun now after =>
        runFrom_reads (issues.mono HandlerCall.reads_of_queries) after⟩
  | change key op logs respond errors unlogged isKey called counted =>
      have isDb := (@runFrom_change clock logging args cmd key op logs respond state 0).2
      have isLog := @runFrom_change_log clock cmd args state 0 key op logs respond
      rw [execute, isDb] at sizedAfter
      cases isLogged : logs (op.apply (clock 0) (state.db.lookup key)).1 with
      | true => exact .inl (isLog.trans (if_pos isLogged))
      | false =>
          refine .inr ⟨isLog.trans (if_neg (isLogged ▸ Bool.false_ne_true)), fun now after => ?_⟩
          have started : clock 0 ≤ now := after 0 le_rfl (tick_le_runFrom (_ : Handler RespValue) _ 1)
          rw [execute, isDb]
          refine Db.purge_eq_later (Db.purge_access ?_) started
          refine op.apply_idle called (noEmpty key) (sized key) (fun stored left => ?_)
            ((unlogged _).trans (congrArg not isLogged))
          exact sizedAfter key stored ((Db.lookup_access _ _ _ _).trans ((if_pos rfl).trans left))
  | set =>
      unfold Handler.set
      split
      · exact .inl rfl
      · split
        · exact .inr ⟨rfl, fun _ _ => rfl⟩
        · exact .inl rfl
        · exact .inl rfl
  | mset =>
      exact logsChanges_of_logs (msetLoop_issues fun _ _ _ => noEntry_db _) _
  | del =>
      exact logsChanges_of_logs (@countLoop_issues _ .remove _ (fun _ _ => noEntry_db _) id 0) _
  | flushdb =>
      refine logsChanges_of_logs (@db_issues _ (fun _ => True) _ (fun _ _ => noEntry_db _) _ ?_) _
      exact (Db.eachShard_issues _ fun _ => trivial).bind fun _ => trivial
  | getset key value rest isArgs =>
      unfold Handler.getset entry perform
      rw [LogsChanges, execute, Program.perform_bind, runFrom_call]
      dsimp only
      split
      · refine .inr ⟨rfl, fun now after => ?_⟩
        exact Call.purge_exec_reads rfl (after 0 le_rfl (tick_le_runFrom _ _ 1)) state.db
      · exact .inl rfl
  | hset key pairs isArgs paired =>
      exact logsChanges_logAndReply (hsetLoop_loops key 0 pairs)
        (hsetLoop_issues (fun _ _ => noEntry_db _) 0 pairs)
  | zadd key pairs isArgs paired =>
      exact logsChanges_logAndReply (zaddLoop_loops key 0 pairs)
        (zaddLoop_issues (fun _ _ => noEntry_db _) 0 pairs)
  | pop key count isArgs isPop =>
      subst isArgs
      unfold Handler.pop
      dsimp only
      by_cases notPositive : (parseI64 count).getD 0 ≤ 0
      · rw [if_pos notPositive]
        exact .inr ⟨rfl, fun _ _ => rfl⟩
      · rw [if_neg notPositive, LogsChanges, execute, runFrom_bind]
        have sameLog := @runFrom_log clock state 0 _ _
          (popLoop_issues (noEntry_db (.entry key (.listPop (cmd == .lpop))))
            ((parseI64 count).getD 0).toNatClampNeg)
        split
        · rename_i fails
          exact .inr ⟨sameLog, fun now =>
            (popLoop_loops key _ _).keeps (Fallible.isError_iff.mpr fails)⟩
        · rename_i takesNone
          exact .inr ⟨sameLog, fun now => popLoop_keeps noEmpty takesNone⟩
        · exact .inl (congrArg (· ++ [(cmd, [key, count])]) sameLog)
  | smove source dest member rest isArgs =>
      unfold Handler.smove perform
      rw [LogsChanges, execute, Program.perform_bind, runFrom_call]
      split
      · exact .inl rfl
      · rename_i notMoved
        refine .inr ⟨rfl, fun now after => Db.purge_eq_later ?_ (after 0 le_rfl Nat.one_pos)⟩
        change ¬okAnd id (state.db.setMove (clock 0) source dest member).1 = true at notMoved
        refine Db.purge_setMove_of_not_hasMember fun has => ?_
        cases moved : (state.db.setMove (clock 0) source dest member).1 with
        | error reason =>
            have wrongType := (Db.setMove_of_hasMember has).1.mp moved
            exact movesRight ⟨rfl, source, dest, member, rest, isArgs, has, wrongType⟩
        | ok isMoved =>
            cases isMoved with
            | true => rw [moved] at notMoved; exact notMoved rfl
            | false =>
                rw [Db.setMove_eq_of_hasMember has] at moved
                exact Shard.addMember_ne_false moved

end Handler

/-! ## Executing a command on the same live entries -/

namespace Call

/-- A call that meets no expired entry has the same result on the same live
entries, and leaves the same ones. -/
theorem exec_congr
    {call : Call} {now : UInt64} {db other : Db} (same : other.purge now = db.purge now)
    (safe : ¬call.meetsExpired now db) (safe' : ¬call.meetsExpired now other) :
    (call.exec now other).1 = (call.exec now db).1 ∧
      (call.exec now other).2.purge now = (call.exec now db).2.purge now := by
  obtain ⟨result, live⟩ := call.exec_purge now db safe
  obtain ⟨result', live'⟩ := call.exec_purge now other safe'
  have sameRef : call.refExec now other = call.refExec now db := by
    rw [refExec, refExec, same]
  exact ⟨by rw [result, result', sameRef], by rw [live, live', sameRef]⟩

theorem remove_congr
    {now : UInt64} {db other : Db} (same : other.purge now = db.purge now) (key : Bytes) :
    ((Call.entry key .remove).exec now other).2.purge now =
      ((Call.entry key .remove).exec now db).2.purge now := by
  apply Db.ext_lookup
  intro probe
  rw [exec, exec, Db.lookup_purge, Db.lookup_purge, Db.lookup_access, Db.lookup_access]
  by_cases own : key = probe
  · rw [if_pos own, if_pos own]
    rfl
  · rw [if_neg own, if_neg own, ← Db.lookup_purge, ← Db.lookup_purge, same]

theorem flush_congr
    {now : UInt64} {db other : Db} (same : other.purge now = db.purge now)
    (index : Fin numShards) :
    (other.flushShard index).purge now = (db.flushShard index).purge now :=
  (flushShard_purge other now index).trans (same ▸ (flushShard_purge db now index).symm)

end Call

namespace Handler

/-- The call's result depends on the live entries alone, if on the database. -/
def steady : HandlerCall → Prop
  | .db call => call.checksExpiry
  | .scripts _ => False
  | _ => True

section Replay

variable {clock : ℕ → UInt64} {cmd : Command} {args : List Bytes}
  {state other : HandlerState} {tick : ℕ} {now later : UInt64}

/-- The keys are removed in turn, whatever is counted. -/
theorem countLoop_remove_agree
    {keys : List Bytes} {count count' : Int64}
    (steps : ∀ first second, first ≤ second → clock first ≤ clock second)
    (started : now ≤ clock tick) (ended : ∀ tick, clock tick ≤ later)
    (same : other.db.purge now = state.db.purge now) :
    (runFrom clock (countLoop count' .remove id keys) other tick).2.1.db.purge later =
      (runFrom clock (countLoop count .remove id keys) state tick).2.1.db.purge later := by
  induction keys generalizing count count' state other tick now with
  | nil => exact Db.purge_eq_later same (UInt64.le_trans started (ended tick))
  | cons key keys ih =>
      exact ih (steps _ _ (Nat.le_succ tick))
        (Call.remove_congr (Db.purge_eq_later same started) key)

theorem shardsInTurn_flush_agree
    {indices : List (Fin numShards)}
    (steps : ∀ first second, first ≤ second → clock first ≤ clock second)
    (started : now ≤ clock tick) (ended : ∀ tick, clock tick ≤ later)
    (same : other.db.purge now = state.db.purge now) :
    (runFrom clock (db (Db.shardsInTurn .flush indices)) other tick).2.1.db.purge later =
      (runFrom clock (db (Db.shardsInTurn .flush indices)) state tick).2.1.db.purge later := by
  induction indices generalizing state other tick now with
  | nil => exact Db.purge_eq_later same (UInt64.le_trans started (ended tick))
  | cons index indices ih =>
      have turns : db (Db.shardsInTurn .flush (index :: indices)) =
          db (Call.perform (.shard index .flush)) >>= fun result =>
            db (Db.shardsInTurn .flush indices) >>= fun results => .pure (result :: results) := by
        rw [Db.shardsInTurn_cons]
        exact congrArg (@Program.call HandlerCall.signature _ (.db (.shard index .flush)))
          (funext fun _ => Program.interpret_bind _ _ _)
      rw [turns, runFrom_bind, runFrom_bind, runFrom_bind, runFrom_bind]
      exact ih (steps _ _ (Nat.le_succ tick))
        (Call.flush_congr (Db.purge_eq_later same started) index)

theorem runFrom_agree
    {handler : Handler α} (issues : handler.Issues steady)
    (steps : ∀ first second, first ≤ second → clock first ≤ clock second)
    (started : now ≤ clock tick) (ended : ∀ tick, clock tick ≤ later)
    (same : other.db.purge now = state.db.purge now) :
    (runFrom clock handler other tick).2.1.db.purge later =
      (runFrom clock handler state tick).2.1.db.purge later := by
  induction handler generalizing state other tick now with
  | pure value => exact Db.purge_eq_later same (UInt64.le_trans started (ended tick))
  | call request next ih =>
      rw [runFrom_call, runFrom_call]
      have before := Db.purge_eq_later same started
      have onwards := steps _ _ (Nat.le_succ tick)
      cases request with
      | db call =>
          obtain ⟨result, after⟩ := Call.exec_congr before
            (call.not_meetsExpired_of_checksExpiry issues.1 _ _)
            (call.not_meetsExpired_of_checksExpiry issues.1 _ _)
          change (runFrom clock (next (call.exec (clock tick) other.db).1) _ _).2.1.db.purge later = _
          rw [result]
          exact ih _ (issues.2 _) onwards after
      | scripts op => exact issues.1.elim
      | _ => exact ih _ (issues.2 _) onwards before

theorem logged_steady (reply : RespValue) :
    (logCmd logging cmd args >>= fun _ => Program.pure reply).Issues steady :=
  (logCmd_issues trivial).bind fun _ => trivial

theorem set_steady : (set logging args).Issues steady := by
  unfold set
  split
  · exact ⟨rfl, fun _ => logged_steady _⟩
  · split
    · trivial
    · exact ⟨rfl, fun _ => logged_steady _⟩
    · exact ⟨trivial, fun _ => ⟨rfl, fun _ => logged_steady _⟩⟩

theorem pop_steady (key count : Bytes) : (pop logging cmd [key, count]).Issues steady := by
  unfold pop
  dsimp only
  split
  · trivial
  · have pops : steady (.db (.entry key (.listPop (cmd == .lpop)))) := rfl
    refine (popLoop_issues pops _).bind fun values => ?_
    match values with
    | .error () | .ok [] => trivial
    | .ok (_ :: _) => exact logged_steady _

/-- The command sets the expiry of an entry that is expired, which brings it back. -/
def Revives (now : UInt64) (cmd : Command) (args : List Bytes) (db : Db) : Prop :=
  (cmd = .expire ∨ cmd = .pexpire) ∧ ∃ key ∈ cmd.keyArgs args, ∃ entry,
    db.lookup key = some entry ∧ entry.expired now = true

/-- Executed on the same live entries, a command that was logged leaves the same
ones. -/
theorem Shape.replays
    {handler : Handler RespValue} (shape : Shape logging args cmd handler)
    (isLogged : (execute clock handler state).2.1.log = state.log ++ [(cmd, args)])
    (revivesNone : ¬Revives (clock 0) cmd args state.db)
    (steps : ∀ first second, first ≤ second → clock first ≤ clock second)
    (started : now ≤ clock 0) (ended : ∀ tick, clock tick ≤ later)
    (same : other.db.purge now = state.db.purge now) :
    (execute clock handler other).2.1.db.purge later =
      (execute clock handler state).2.1.db.purge later := by
  have agree := fun issues => @runFrom_agree clock state other 0 now later RespValue handler
    issues steps started ended same
  cases shape with
  | reading issues =>
      have sameLog : (execute clock handler state).2.1.log = state.log :=
        runFrom_log (issues.mono noEntry_of_queries)
      rw [sameLog] at isLogged
      exact absurd isLogged (by simp)
  | change key op logs respond errors unlogged isKey called counted =>
      have before := Db.purge_eq_later same started
      have wasLogged := (@runFrom_change_log clock cmd args state 0 key op logs respond).symm.trans
        isLogged
      rw [execute, execute, (runFrom_change other 0).2, (runFrom_change state 0).2]
      refine Db.purge_eq_later ?_ (ended 0)
      have congr := @Call.exec_congr (.entry key op) (clock 0) state.db other.db before
      cases ignores : op.ignoresExpiry with
      | false =>
          have checks : (Call.entry key op).checksExpiry := ignores
          exact (congr (Call.not_meetsExpired_of_checksExpiry _ checks _ _)
            (Call.not_meetsExpired_of_checksExpiry _ checks _ _)).2
      | true =>
          cases op with
          | remove => exact Call.remove_congr before key
          | setExpireMs ttlMs =>
              have isExpire : cmd = .expire ∨ cmd = .pexpire := by
                simpa [EntryOp.calledBy] using called
              refine (congr (fun meets => revivesNone ⟨isExpire, key, isKey, meets.2⟩) ?_).2
              rintro ⟨-, entry', isStored', expired'⟩
              have visible := congrArg (fun db => db.lookup key) before
              simp only [Db.lookup_purge, isStored'] at visible
              rw [Option.filter_some_neg (by simp [Entry.live, expired'])] at visible
              cases found : state.db.lookup key with
              | none =>
                  rw [found, if_neg (ne_true_of_eq_false
                    ((Bool.not_eq_true' _).mp (unlogged _).symm))] at wasLogged
                  simp at wasLogged
              | some entry =>
                  rw [found, eq_comm, Option.filter_eq_none_iff] at visible
                  have expired : entry.expired (clock 0) = true := by
                    simpa [Entry.live] using visible entry rfl
                  exact revivesNone ⟨isExpire, key, isKey, entry, found, expired⟩
          | _ => cases ignores
  | set => exact agree set_steady
  | mset =>
      exact agree ((msetLoop_issues fun _ _ _ => rfl).bind fun _ => logged_steady _)
  | getset key value rest isArgs =>
      refine agree ⟨rfl, fun previous => ?_⟩
      cases previous with
      | error reason => trivial
      | ok previous => exact ⟨rfl, fun _ => logged_steady _⟩
  | hset key pairs isArgs paired =>
      exact agree ((hsetLoop_issues (fun _ _ => rfl) 0 pairs).bind (logAndReply_issues trivial))
  | zadd key pairs isArgs paired =>
      exact agree ((zaddLoop_issues (fun _ _ => rfl) 0 pairs).bind (logAndReply_issues trivial))
  | pop key count isArgs isPop => exact isArgs ▸ agree (isArgs ▸ pop_steady key count)
  | smove source dest member rest isArgs =>
      exact agree ⟨trivial, fun moved => logIf_issues trivial _ _⟩
  | del =>
      simp only [execute, runFrom_bind]
      exact @countLoop_remove_agree clock state other 0 now later args 0 0 steps started ended same
  | flushdb =>
      have begins : db Db.flush =
          db (Db.shardsInTurn .flush (List.finRange numShards)) >>= fun results =>
            .pure results.sum :=
        Program.interpret_bind _ _ _
      rw [execute, execute, begins]
      generalize List.finRange numShards = indices
      simp only [runFrom_bind]
      exact @shardsInTurn_flush_agree clock state other 0 now later indices steps started ended same

end Replay

/-- A command leaves no empty aggregate. -/
theorem runFrom_noEmpty
    {handler : Handler α} (issues : handler.Issues (HandlerCall.ofRequest cmd args))
    (noEmpty : state.db.NoEmpty) :
    (runFrom clock handler state tick).2.1.db.NoEmpty :=
  @runFrom_keeps Db.NoEmpty cmd args
    (fun now ofRequest noEmpty => HandlerCall.noEmpty_exec ofRequest now noEmpty) _ _ issues _ _ _
    noEmpty

end Handler

/-! ## Executing the logged commands of a run -/

/-- A command with the clock readings of its execution, none of them after the
time at which it ends. -/
structure TimedCommand where
  clock : ℕ → UInt64
  ended : UInt64
  cmd : Command
  args : List Bytes
  steps : ∀ first second, first ≤ second → clock first ≤ clock second
  isEnded : ∀ tick, clock tick ≤ ended

namespace TimedCommand

/-- Execute the command with the log enabled. -/
def exec (state : HandlerState) (request : TimedCommand) : HandlerState :=
  (Handler.execute request.clock (Handler.handleCommand logging request.cmd request.args)
    state).2.1

/-- The log entry of the command. -/
def entry (request : TimedCommand) : Command × List Bytes := (request.cmd, request.args)

/-- The command does not take a member out of a set for a destination that is no
set, and does not bring back an expired entry; the sizes before and after it are
ones that an `i64` holds. -/
structure Covered (state : HandlerState) (request : TimedCommand) : Prop where
  movesRight : ¬MovesToWrongType (request.clock 0) request.cmd request.args state.db
  revivesNone : ¬Handler.Revives (request.clock 0) request.cmd request.args state.db
  sized : state.db.Sized
  sizedAfter : (exec state request).db.Sized

variable {state other : HandlerState} {now later : UInt64}

/-- Step lemma: the command is logged or not, and executed on the same live entries
if it is, it leaves the ones that it left. -/
theorem exec_covered
    {request : TimedCommand} (covered : Covered state request) (noEmpty : state.db.NoEmpty)
    (started : now ≤ request.clock 0) (same : other.db.purge now = state.db.purge now) :
    ∃ logged : List TimedCommand, logged.Sublist [request] ∧
      (exec state request).log = state.log ++ logged.map entry ∧
      (logged.foldl exec other).db.purge request.ended =
        (exec state request).db.purge request.ended := by
  rcases Handler.handleCommand_shape.logsChanges covered.movesRight noEmpty covered.sized
    covered.sizedAfter with isLogged | ⟨sameLog, keeps⟩
  · exact ⟨[request], .refl _, isLogged, Handler.handleCommand_shape.replays isLogged
      covered.revivesNone request.steps started request.isEnded same⟩
  · have onwards := Db.purge_eq_later same (UInt64.le_trans started (request.isEnded 0))
    exact ⟨[], List.nil_sublist _, sameLog.trans (List.append_nil _).symm,
      onwards.trans (keeps _ fun tick _ _ => request.isEnded tick).symm⟩

/-- The log of a run lists some of its commands in their order, and these alone
leave the live entries that the run leaves. -/
theorem exec_logged
    {requests : List TimedCommand} (noEmpty : state.db.NoEmpty)
    (covered : Trace.Along exec Covered state requests)
    (inTurn : requests.Pairwise fun earlier next => earlier.ended ≤ next.clock 0)
    (started : ∀ request ∈ requests, now ≤ request.clock 0)
    (ended : ∀ request ∈ requests, request.ended ≤ later) (onwards : now ≤ later)
    (same : other.db.purge now = state.db.purge now) :
    ∃ logged : List TimedCommand, logged.Sublist requests ∧
      (requests.foldl exec state).log = state.log ++ logged.map entry ∧
      (logged.foldl exec other).db.purge later =
        (requests.foldl exec state).db.purge later := by
  induction requests generalizing state other now with
  | nil => exact ⟨[], .slnil, (List.append_nil _).symm, Db.purge_eq_later same onwards⟩
  | cons request requests ih =>
      obtain ⟨isFirst, inTurn⟩ := List.pairwise_cons.mp inTurn
      obtain ⟨first, isFirstPart, isFirstLog, agree⟩ :=
        exec_covered covered.1 noEmpty (started request List.mem_cons_self) same
      obtain ⟨rest, isPart, isLog, leaves⟩ := @ih (exec state request) _ _
        (Handler.runFrom_noEmpty Handler.handleCommand_ofRequest noEmpty) covered.2 inTurn
        isFirst (fun _ isRest => ended _ (List.mem_cons_of_mem _ isRest))
        (ended _ List.mem_cons_self) agree
      refine ⟨first ++ rest, isFirstPart.append isPart, ?_, ?_⟩
      · rw [List.foldl_cons, isLog, isFirstLog, List.append_assoc, List.map_append]
      · rw [List.foldl_append, leaves, List.foldl_cons]

/-- Executing the logged commands of a run, each at its clock readings, leaves
under every key what the run leaves there. -/
theorem replay_log
    {requests : List TimedCommand} (noEmpty : state.db.NoEmpty)
    (covered : Trace.Along exec Covered state requests)
    (inTurn : requests.Pairwise fun earlier next => earlier.ended ≤ next.clock 0)
    (ended : ∀ request ∈ requests, request.ended ≤ later) :
    ∃ logged : List TimedCommand, logged.Sublist requests ∧
      (requests.foldl exec state).log = state.log ++ logged.map entry ∧
      ∀ key, (logged.foldl exec state).db.visible later key =
        (requests.foldl exec state).db.visible later key := by
  obtain ⟨logged, isPart, isLog, leaves⟩ := @exec_logged state state 0 later requests noEmpty
    covered inTurn (fun _ _ => UInt64.zero_le) ended UInt64.zero_le rfl
  exact ⟨logged, isPart, isLog, Db.visible_eq_of_purge_eq leaves⟩

/-- A command at the time 0. -/
def atOnce (cmd : Command) (args : List Bytes) : TimedCommand :=
  ⟨fun _ => 0, 0, cmd, args, fun _ _ _ => UInt64.le_refl 0, fun _ => UInt64.le_refl 0⟩

/-- `SET k x`, then `PING`. -/
def setAndPing : List TimedCommand :=
  [atOnce .set [asBytes "k", asBytes "x"], atOnce .ping []]

theorem replay_setAndPing :
    ∃ logged : List TimedCommand, logged.Sublist setAndPing ∧
      (setAndPing.foldl exec ⟨Db.empty, [], fun _ => none⟩).log = [] ++ logged.map entry ∧
      ∀ key, (logged.foldl exec ⟨Db.empty, [], fun _ => none⟩).db.visible 0 key =
        (setAndPing.foldl exec ⟨Db.empty, [], fun _ => none⟩).db.visible 0 key := by
  have start : Db.empty.Sized := fun _ _ isStored => by cases isStored
  have wrote : (Db.empty.access (asBytes "k") (Shard.setStringRef (asBytes "x") none)).2.Sized := by
    intro probe stored isStored
    rw [Db.lookup_access] at isStored
    split at isStored <;> cases isStored
    trivial
  exact @replay_log _ 0 setAndPing .empty
    ⟨⟨fun moves => (by cases moves.1), fun revives => revives.1.elim nofun nofun, start, wrote⟩,
      ⟨fun moves => (by cases moves.1), fun revives => revives.1.elim nofun nofun, wrote, wrote⟩,
      trivial⟩
    (by simp [setAndPing, atOnce]) (by simp [setAndPing, atOnce])

end TimedCommand
end Cache
end MuonJs
