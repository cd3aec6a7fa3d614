import MuonJs.Cache.Atomicity
import MuonJs.Cache.Saves

/-!
# Copying the databases while clients write

`SAVE` copies the shards of all databases in turn and holds the lock of one
shard at a time.  Every shard is copied as it is in its turn.  The copies are
those of one moment when the calls between this moment and the turn of a shard
leave the live entries of the shard alone.
-/

namespace MuonJs
namespace Cache

namespace Db

/-- Setting the items of all shards gives the database. -/
theorem setItems_shard_items (db : Db) :
    empty.setItems ((List.finRange numShards).flatMap fun index =>
      Shard.items (db.shards index)) = db := by
  apply ext_lookup
  intro key
  obtain ⟨present, absent⟩ :=
    lookup_setItems empty _ (LibsqlPersist.shard_items_distinct db) key
  cases stored : db.lookup key with
  | some entry =>
      exact present entry.value entry.expiresAt
        ((LibsqlPersist.mem_shard_items db key _ _).mpr stored)
  | none =>
      refine (absent fun isKey => ?_).trans (lookup_empty key)
      obtain ⟨⟨itemKey, value, exp⟩, isItem, rfl⟩ := List.mem_map.mp isKey
      rw [LibsqlPersist.mem_shard_items, stored] at isItem
      cases isItem

end Db

namespace Server

/-- The calls of a connection, one after the other. -/
abbrev Calls (n : ℕ) (ι : Type) := List (Event (ServerCall.signature n) ι Moment)

/-- A shard of one of the databases. -/
abbrev Place (n : ℕ) := Fin n × Fin numShards

/-- The copying of one shard. -/
def copyEvent (thread : ι) (time : Moment) (place : Place n) :
    Event (ServerCall.signature n) ι Moment :=
  ⟨thread, time, .db place.1 (.shard place.2 .snapshotItems)⟩

/-- When each shard is copied: the calls before, and the clock. -/
structure Turns (n : ℕ) (ι : Type) where
  before : Place n → Calls n ι
  time : Place n → Moment

namespace Turns

/-- The calls up to the copying of a shard. -/
def upTo (turns : Turns n ι) (thread : ι) (place : Place n) : Calls n ι :=
  turns.before place ++ [copyEvent thread (turns.time place) place]

/-- The live entries that are copied. -/
def found (turns : Turns n ι) (state : ServerState n) (place : Place n) :
    ByteMap Entry :=
  Shard.purgeExpiredAll (turns.time place).now
    (((Event.after ServerCall.exec state (turns.before place)).dbs place.1).shards place.2)

/-- The copy of a database. -/
def copy (turns : Turns n ι) (state : ServerState n) (idx : Fin n) : Db where
  shards := fun shard => turns.found state (idx, shard)
  placed := fun shard key stored =>
    Db.placed _ shard key (Db.mem_purgeExpiredAll _ _ key stored)

/-- The turns of a run that goes on after some calls. -/
def shift (turns : Turns n ι) (done : Calls n ι) : Turns n ι :=
  { turns with before := fun place => done ++ turns.before place }

theorem upTo_shift (turns : Turns n ι) (done : Calls n ι) (thread : ι) (place : Place n) :
    (turns.shift done).upTo thread place = done ++ turns.upTo thread place :=
  List.append_assoc _ _ _

theorem found_shift
    (turns : Turns n ι) (done : Calls n ι) (state : ServerState n) (place : Place n) :
    (turns.shift done).found state place =
      turns.found (Event.after ServerCall.exec state done) place := by
  unfold found shift
  rw [Event.after_append]

/-- The turns of some shards from one run, the others from another. -/
def select (chosen : Place n → Prop) [DecidablePred chosen] (first second : Turns n ι) :
    Turns n ι where
  before := fun place => if chosen place then first.before place else second.before place
  time := fun place => if chosen place then first.time place else second.time place

section Select

variable (chosen : Place n → Prop) [DecidablePred chosen] {first second : Turns n ι}
  {place : Place n}

theorem before_select_pos (isChosen : chosen place) :
    (select chosen first second).before place = first.before place := if_pos isChosen

theorem before_select_neg (notChosen : ¬chosen place) :
    (select chosen first second).before place = second.before place := if_neg notChosen

theorem upTo_select_pos (isChosen : chosen place) (thread : ι) :
    (select chosen first second).upTo thread place = first.upTo thread place := by
  simp [upTo, select, isChosen]

theorem upTo_select_neg (notChosen : ¬chosen place) (thread : ι) :
    (select chosen first second).upTo thread place = second.upTo thread place := by
  simp [upTo, select, notChosen]

theorem found_select_pos (isChosen : chosen place) (state : ServerState n) :
    (select chosen first second).found state place = first.found state place := by
  simp [found, select, isChosen]

theorem found_select_neg (notChosen : ¬chosen place) (state : ServerState n) :
    (select chosen first second).found state place = second.found state place := by
  simp [found, select, notChosen]

end Select
end Turns

theorem dbMethod_shardsInTurn_cons
    (idx : Fin n) (op : ShardOp) (shard : Fin numShards) (shards : List (Fin numShards))
    (follow : List op.Result → Session n α) :
    (dbMethod idx (Db.shardsInTurn op (shard :: shards)) >>= follow) =
      @Program.call (ServerCall.signature n) _ (.db idx (.shard shard op)) fun result =>
        dbMethod idx (Db.shardsInTurn op shards) >>= fun results =>
          follow (result :: results) := by
  rw [Db.shardsInTurn_cons]
  change @Program.call (ServerCall.signature n) _ (.db idx (.shard shard op))
    (fun result => dbMethod idx (Db.shardsInTurn op shards >>= fun results =>
      .pure (result :: results)) >>= follow) = _
  congr 1
  funext result
  rw [dbMethod, Program.interpret_bind, bind_assoc]
  rfl

theorem snapshotDbs_cons
    (idx : Fin n) (indices : List (Fin n)) (follow : Dbs n → Session n α) :
    (snapshotDbs (idx :: indices) >>= follow) =
      dbMethod idx (Db.shardsInTurn .snapshotItems (List.finRange numShards)) >>=
        fun items => snapshotDbs indices >>= fun copies =>
          follow (Function.update copies idx (Db.empty.setItems items.flatten)) := by
  have isMethod : dbMethod idx Db.snapshotItems =
      dbMethod idx (Db.shardsInTurn .snapshotItems (List.finRange numShards)) >>=
        fun items => .pure items.flatten := by
    unfold dbMethod Db.snapshotItems Db.eachShard
    rw [Program.interpret_bind]
    rfl
  rw [snapshotDbs, isMethod, bind_assoc, bind_assoc]
  congr 1
  funext items
  exact Program.bind_assoc' _ _ _

section Copied

variable [DecidableEq ι] {thread : ι} {threads final : ι → Session n α}
  {state last : ServerState n} {events : Calls n ι}

/-- The shards of one database are copied one after the other, each as it is in
its turn. -/
theorem copied_shards
    (idx : Fin n) {shards : List (Fin numShards)} (distinct : shards.Nodup)
    {follow : List (List (Bytes × Value × Option UInt64)) → Session n α}
    (begins : threads thread =
      dbMethod idx (Db.shardsInTurn .snapshotItems shards) >>= follow)
    (run : Interleaving ServerCall.exec threads state events final last)
    {value : α} (returns : final thread = .pure value) :
    ∃ (turns : Turns n ι) (done rest : Calls n ι) (middle : ι → Session n α),
      events = done ++ rest ∧
        (∀ shard ∈ shards, turns.upTo thread (idx, shard) <+: done) ∧
        shards.Pairwise (fun shard later =>
          turns.upTo thread (idx, shard) <+: turns.before (idx, later)) ∧
        Interleaving ServerCall.exec middle (Event.after ServerCall.exec state done) rest
          final last ∧
        middle thread =
          follow (shards.map fun shard => Shard.items (turns.found state (idx, shard))) := by
  induction shards generalizing threads state events follow with
  | nil =>
      exact ⟨⟨fun _ => [], fun _ => .start⟩, [], events, threads, rfl,
        fun _ inNil => absurd inNil List.not_mem_nil, .nil, run, begins⟩
  | cons shard shards ih =>
      obtain ⟨notLater, restDistinct⟩ := List.nodup_cons.mp distinct
      rw [dbMethod_shardsInTurn_cons] at begins
      obtain ⟨before, time, tail, middle, rfl, follows, ran⟩ :=
        run.first_call begins returns
      obtain ⟨turns, done, rest, middle', rfl, isDone, inOrder, ran', follows'⟩ :=
        ih restDistinct follows ran
      let taken := before ++ [copyEvent thread time (idx, shard)]
      let chosen : Place n → Prop := fun place => place = (idx, shard)
      let all : Turns n ι :=
        .select chosen ⟨fun _ => before, fun _ => time⟩ (turns.shift taken)
      have notFirst : ∀ later ∈ shards, ¬chosen (idx, later) := by
        intro later inShards (same : (idx, later) = (idx, shard))
        exact notLater ((Prod.mk.inj same).2 ▸ inShards)
      have upToFirst : all.upTo thread (idx, shard) = taken :=
        Turns.upTo_select_pos chosen rfl thread
      have upToLater : ∀ later ∈ shards,
          all.upTo thread (idx, later) = taken ++ turns.upTo thread (idx, later) :=
        fun later inRest => (Turns.upTo_select_neg chosen (notFirst later inRest) thread).trans
          (turns.upTo_shift taken thread (idx, later))
      have beforeLater : ∀ later ∈ shards,
          all.before (idx, later) = taken ++ turns.before (idx, later) :=
        fun later inRest => Turns.before_select_neg chosen (notFirst later inRest)
      refine ⟨all, taken ++ done, rest, middle', by simp [taken, copyEvent], ?_, ?_, ?_, ?_⟩
      · intro later inShards
        rcases List.mem_cons.mp inShards with rfl | inRest
        · rw [upToFirst]
          exact List.prefix_append _ _
        · rw [upToLater later inRest]
          exact (List.prefix_append_right_inj taken).mpr (isDone later inRest)
      · refine List.pairwise_cons.mpr ⟨fun later inRest => ?_, ?_⟩
        · rw [upToFirst, beforeLater later inRest]
          exact List.prefix_append _ _
        · refine inOrder.imp_of_mem fun inRest inRest' before => ?_
          rw [upToLater _ inRest, beforeLater _ inRest']
          exact (List.prefix_append_right_inj taken).mpr before
      · rw [Event.after_append]
        exact ran'
      · rw [follows', List.map_cons]
        have foundFirst : all.found state (idx, shard) =
            Shard.purgeExpiredAll time.now
              (((Event.after ServerCall.exec state before).dbs idx).shards shard) :=
          Turns.found_select_pos chosen rfl state
        have foundLater : ∀ later ∈ shards, all.found state (idx, later) =
            turns.found (Event.after ServerCall.exec state taken) (idx, later) :=
          fun later inRest => (Turns.found_select_neg chosen (notFirst later inRest) state).trans
            (turns.found_shift taken state (idx, later))
        rw [foundFirst]
        congr 2
        apply List.map_congr_left
        intro later inRest
        rw [foundLater later inRest]
        rfl

/-- The databases are copied one after the other. -/
theorem copied_dbs
    {indices : List (Fin n)} (distinct : indices.Nodup)
    {follow : Dbs n → Session n α}
    (begins : threads thread = snapshotDbs indices >>= follow)
    (run : Interleaving ServerCall.exec threads state events final last)
    {value : α} (returns : final thread = .pure value) :
    ∃ (turns : Turns n ι) (done rest : Calls n ι) (middle : ι → Session n α)
        (copies : Dbs n),
      events = done ++ rest ∧
        (∀ idx ∈ indices, ∀ shard, turns.upTo thread (idx, shard) <+: done) ∧
        (∀ idx ∈ indices, (List.finRange numShards).Pairwise fun shard later =>
          turns.upTo thread (idx, shard) <+: turns.before (idx, later)) ∧
        indices.Pairwise (fun idx later => ∀ shard shard',
          turns.upTo thread (idx, shard) <+: turns.before (later, shard')) ∧
        Interleaving ServerCall.exec middle (Event.after ServerCall.exec state done) rest
          final last ∧
        middle thread = follow copies ∧
        ∀ idx ∈ indices, ∀ shard, (copies idx).shards shard = turns.found state (idx, shard) := by
  induction indices generalizing threads state events follow with
  | nil =>
      exact ⟨⟨fun _ => [], fun _ => .start⟩, [], events, threads, fun _ => .empty, rfl,
        fun _ inNil => absurd inNil List.not_mem_nil,
        fun _ inNil => absurd inNil List.not_mem_nil, .nil, run, begins,
        fun _ inNil => absurd inNil List.not_mem_nil⟩
  | cons idx indices ih =>
      obtain ⟨notLater, restDistinct⟩ := List.nodup_cons.mp distinct
      rw [snapshotDbs_cons] at begins
      obtain ⟨own, taken, tail, middle, rfl, ownDone, ownOrder, ran, follows⟩ :=
        copied_shards idx (List.nodup_finRange numShards) begins run returns
      obtain ⟨turns, done, rest, middle', copies, rfl, isDone, inOrder, dbsInOrder, ran',
        follows', isCopy⟩ := ih restDistinct follows ran
      let chosen : Place n → Prop := fun place => place.1 = idx
      let all : Turns n ι := .select chosen own (turns.shift taken)
      have notFirst : ∀ later ∈ indices, ∀ shard, ¬chosen (later, shard) := by
        intro later inRest shard (same : later = idx)
        exact notLater (same ▸ inRest)
      have upToFirst : ∀ shard, all.upTo thread (idx, shard) = own.upTo thread (idx, shard) :=
        fun shard => Turns.upTo_select_pos chosen rfl thread
      have beforeFirst : ∀ shard, all.before (idx, shard) = own.before (idx, shard) :=
        fun shard => Turns.before_select_pos chosen rfl
      have upToLater : ∀ later ∈ indices, ∀ shard,
          all.upTo thread (later, shard) = taken ++ turns.upTo thread (later, shard) :=
        fun later inRest shard =>
          (Turns.upTo_select_neg chosen (notFirst later inRest shard) thread).trans
            (turns.upTo_shift taken thread (later, shard))
      have beforeLater : ∀ later ∈ indices, ∀ shard,
          all.before (later, shard) = taken ++ turns.before (later, shard) :=
        fun later inRest shard =>
          Turns.before_select_neg chosen (notFirst later inRest shard)
      refine ⟨all, taken ++ done, rest, middle', _, (List.append_assoc _ _ _).symm, ?_, ?_,
        ?_, ?_, follows', ?_⟩
      · intro later inIndices shard
        rcases List.mem_cons.mp inIndices with rfl | inRest
        · rw [upToFirst]
          exact (ownDone shard (List.mem_finRange _)).trans (List.prefix_append _ _)
        · rw [upToLater later inRest]
          exact (List.prefix_append_right_inj taken).mpr (isDone later inRest shard)
      · intro later inIndices
        rcases List.mem_cons.mp inIndices with rfl | inRest
        · refine ownOrder.imp fun before => ?_
          rw [upToFirst, beforeFirst]
          exact before
        · refine (inOrder later inRest).imp fun before => ?_
          rw [upToLater later inRest, beforeLater later inRest]
          exact (List.prefix_append_right_inj taken).mpr before
      · refine List.pairwise_cons.mpr ⟨fun later inRest shard shard' => ?_, ?_⟩
        · rw [upToFirst, beforeLater later inRest]
          exact (ownDone shard (List.mem_finRange _)).trans (List.prefix_append _ _)
        · refine dbsInOrder.imp_of_mem fun inRest inRest' before shard shard' => ?_
          rw [upToLater _ inRest, beforeLater _ inRest']
          exact (List.prefix_append_right_inj taken).mpr (before shard shard')
      · rw [Event.after_append]
        exact ran'
      · intro later inIndices shard
        rcases List.mem_cons.mp inIndices with rfl | inRest
        · rw [Function.update_self]
          have isItems : (List.map (fun shard => Shard.items (own.found state (later, shard)))
                (List.finRange numShards)).flatten =
              (List.finRange numShards).flatMap fun shard =>
                Shard.items ((own.copy state later).shards shard) := rfl
          rw [isItems, Db.setItems_shard_items]
          exact (Turns.found_select_pos chosen rfl state).symm
        · have different : later ≠ idx := fun same => notLater (same ▸ inRest)
          rw [Function.update_of_ne different, isCopy later inRest]
          exact ((Turns.found_select_neg chosen (notFirst later inRest shard) state).trans
            (turns.found_shift taken state (later, shard))).symm

end Copied
/-! ## Consistent cuts -/

/-- The call leaves the live entries of a shard alone: it is not a call of the
shard, or it only reads. -/
def Leaves (place : Place n) : ServerCall n → Prop
  | .db idx call => idx ≠ place.1 ∨ place.2 ∉ call.locks ∨ call.reads = true
  | _ => True

/-- Only the calls of a database change it. -/
theorem dbs_exec_of_not_db
    {call : ServerCall n} (notDb : ∀ idx request, call ≠ .db idx request)
    (moment : Moment) (state : ServerState n) :
    (call.exec moment state).2.dbs = state.dbs := by
  cases call with
  | db idx request => exact absurd rfl (notDb idx request)
  | snapshot copies =>
      unfold ServerCall.exec
      cases moment.snapshot <;> rfl
  | subscribe sender channels =>
      change (channels.foldl (ServerState.register sender) state).dbs = _
      clear notDb
      induction channels generalizing state with
      | nil => rfl
      | cons channel channels ih => exact ih (state.register sender channel)
  | trySend receiver message =>
      change (state.trySend receiver message).2.dbs = _
      unfold ServerState.trySend
      cases state.queues receiver with
      | none => rfl
      | some waiting => dsimp only; split <;> rfl
  | _ => rfl

theorem Leaves.live_next
    {place : Place n} {event : Event (ServerCall.signature n) ι Moment}
    (leaves : Leaves place event.request) {later : UInt64}
    (inTime : event.time.now ≤ later) (state : ServerState n) :
    (((event.next ServerCall.exec state).dbs place.1).purge later).shards place.2 =
      ((state.dbs place.1).purge later).shards place.2 := by
  obtain ⟨thread, time, request⟩ := event
  change ((((ServerCall.exec time request state).2).dbs place.1).purge later).shards place.2 = _
  cases request with
  | db idx call =>
      change ((Function.update state.dbs idx (call.exec time.now (state.dbs idx)).2
        place.1).purge later).shards place.2 = _
      by_cases own : idx = place.1
      · subst own
        rw [Function.update_self]
        rcases leaves.resolve_left fun different => different rfl with unlocked | reads
        · exact congrArg (Shard.purgeExpiredAll later)
            (call.shards_exec_of_notMem time.now _ unlocked)
        · rw [Call.purge_exec_reads reads inTime]
      · rw [Function.update_of_ne (Ne.symm own)]
  | _ =>
      rw [dbs_exec_of_not_db]
      intro idx request same
      cases same

/-- What only calls leave alone that fall between is the same before and after
them. -/
theorem live_after
    {place : Place n} {between : Calls n ι} {later : UInt64}
    (leaves : ∀ event ∈ between, Leaves place event.request)
    (inTime : ∀ event ∈ between, event.time.now ≤ later) (state : ServerState n) :
    (((Event.after ServerCall.exec state between).dbs place.1).purge later).shards
        place.2 =
      ((state.dbs place.1).purge later).shards place.2 := by
  induction between generalizing state with
  | nil => rfl
  | cons event between ih =>
      refine (ih (fun event inRest => leaves event (List.mem_cons_of_mem _ inRest))
        (fun event inRest => inTime event (List.mem_cons_of_mem _ inRest))
        (event.next ServerCall.exec state)).trans ?_
      exact (leaves event List.mem_cons_self).live_next
        (inTime event List.mem_cons_self) state

/-- The calls between a moment and the turn of a shard leave the shard alone. -/
def Turns.Quiet (turns : Turns n ι) (moment : Calls n ι) : Prop :=
  ∀ place between,
    (turns.before place = moment ++ between ∨ moment = turns.before place ++ between) →
      ∀ event ∈ between, Leaves place event.request

/-- Every shard is copied once, in its turn, as it is in this turn. -/
structure CopiedInTurn (thread : ι) (state : ServerState n) (events : Calls n ι)
    (turns : Turns n ι) (copies : Dbs n) : Prop where
  upTo : ∀ place, turns.upTo thread place <+: events
  inOrder : ∀ place later : Place n,
    place.1 < later.1 ∨ place.1 = later.1 ∧ place.2 < later.2 →
      turns.upTo thread place <+: turns.before later
  found : ∀ place, (copies place.1).shards place.2 = turns.found state place

/-- The copies are the live contents of all databases at one moment of a run. -/
def ConsistentCut (later : UInt64) (state : ServerState n) (events : Calls n ι)
    (copies : Dbs n) (moment : Calls n ι) : Prop :=
  moment <+: events ∧ ∀ idx, (copies idx).purge later =
    ((Event.after ServerCall.exec state moment).dbs idx).purge later

section CopiedInTurn

variable {thread : ι} {state : ServerState n} {events : Calls n ι} {turns : Turns n ι}
  {copies : Dbs n} {later : UInt64}

/-- The live entries of a copied shard are those of the shard in its turn. -/
theorem CopiedInTurn.purge_shards
    (copied : CopiedInTurn thread state events turns copies)
    (inTime : ∀ event ∈ events, event.time.now ≤ later) (place : Place n) :
    ((copies place.1).purge later).shards place.2 =
      (((Event.after ServerCall.exec state (turns.before place)).dbs place.1).purge
        later).shards place.2 := by
  have inTurn : (turns.time place).now ≤ later :=
    inTime (copyEvent thread (turns.time place) place)
      ((copied.upTo place).subset
        (List.mem_append_right _ (List.mem_singleton.mpr rfl)))
  refine (congrArg (Shard.purgeExpiredAll later) (copied.found place)).trans ?_
  have twice := Db.purge_purge_later
    ((Event.after ServerCall.exec state (turns.before place)).dbs place.1) inTurn
  exact congrArg (fun db : Db => db.shards place.2) twice

/-- The copy shows a key as it is in the turn of its shard. -/
theorem CopiedInTurn.visible
    (copied : CopiedInTurn thread state events turns copies)
    (inTime : ∀ event ∈ events, event.time.now ≤ later) (idx : Fin n) (key : Bytes) :
    (copies idx).visible later key =
      ((Event.after ServerCall.exec state (turns.before (idx, shardIndex key))).dbs
        idx).visible later key := by
  rw [Db.visible, Db.visible, ← Db.lookup_purge, ← Db.lookup_purge, Db.lookup, Db.lookup]
  exact congrArg (fun shard : ByteMap Entry => shard[key]?)
    (copied.purge_shards inTime (idx, shardIndex key))

/-- Copies made in turn are those of a moment when the calls between the moment
and the turn of each shard leave the shard alone. -/
theorem CopiedInTurn.consistentCut
    (copied : CopiedInTurn thread state events turns copies)
    (inTime : ∀ event ∈ events, event.time.now ≤ later)
    {moment : Calls n ι} (isMoment : moment <+: events) (quiet : turns.Quiet moment) :
    ConsistentCut later state events copies moment := by
  refine ⟨isMoment, fun idx => Db.ext_shards fun shard => ?_⟩
  have isPrefix : turns.before (idx, shard) <+: events :=
    (List.prefix_append _ _).trans (copied.upTo (idx, shard))
  rw [copied.purge_shards inTime (idx, shard)]
  rcases List.prefix_or_prefix_of_prefix isPrefix isMoment with
    ⟨between, isAppend⟩ | ⟨between, isAppend⟩
  · have leaves := quiet (idx, shard) between (.inr isAppend.symm)
    rw [← isAppend, Event.after_append]
    refine (live_after leaves (fun event inBetween => inTime event ?_) _).symm
    exact isMoment.subset (isAppend ▸ List.mem_append_right _ inBetween)
  · have leaves := quiet (idx, shard) between (.inl isAppend.symm)
    rw [← isAppend, Event.after_append]
    refine live_after leaves (fun event inBetween => inTime event ?_) _
    exact isPrefix.subset (isAppend ▸ List.mem_append_right _ inBetween)

end CopiedInTurn

/-- The copying phase of `SAVE`: every shard is copied as it is in its turn, and
the copies are those of every moment from which no call changes a shard until
its turn, or since. -/
theorem snapshotDbs_copies [DecidableEq ι] {thread : ι}
    {threads final : ι → Session n α} {state last : ServerState n} {events : Calls n ι}
    {follow : Dbs n → Session n α}
    (begins : threads thread = snapshotDbs (List.finRange n) >>= follow)
    (run : Interleaving ServerCall.exec threads state events final last)
    {value : α} (returns : final thread = .pure value) :
    ∃ (copying rest : Calls n ι) (middle : ι → Session n α) (copies : Dbs n)
        (turns : Turns n ι),
      events = copying ++ rest ∧ middle thread = follow copies ∧
        Interleaving ServerCall.exec middle (Event.after ServerCall.exec state copying)
          rest final last ∧
        CopiedInTurn thread state copying turns copies ∧
        ∀ later, (∀ event ∈ copying, event.time.now ≤ later) →
          ∀ moment, moment <+: copying → turns.Quiet moment →
            ConsistentCut later state copying copies moment := by
  obtain ⟨turns, copying, rest, middle, copies, isAppend, isDone, inOrder, dbsInOrder, ran,
    follows, isCopy⟩ := copied_dbs (List.nodup_finRange n) begins run returns
  have copied : CopiedInTurn thread state copying turns copies := by
    refine ⟨fun place => isDone _ (List.mem_finRange _) _, ?_,
      fun place => isCopy _ (List.mem_finRange _) _⟩
    rintro ⟨idx, shard⟩ ⟨idx', shard'⟩ (before | ⟨rfl, before⟩)
    · rw [← List.ofFn_id, List.pairwise_ofFn] at dbsInOrder
      exact dbsInOrder before shard shard'
    · have shardsInOrder := inOrder idx (List.mem_finRange _)
      rw [← List.ofFn_id, List.pairwise_ofFn] at shardsInOrder
      exact shardsInOrder before
  exact ⟨copying, rest, middle, copies, turns, isAppend, follows, ran, copied,
    fun later inTime moment isMoment quiet => copied.consistentCut inTime isMoment quiet⟩

/-! ## Two writes while the databases are copied -/

/-- The shards of a database can be copied without a call between. -/
theorem runs_shards [DecidableEq ι] {thread : ι} {threads : ι → Session n α}
    {state : ServerState n} (time : Moment) (idx : Fin n) (shards : List (Fin numShards))
    {follow : List (List (Bytes × Value × Option UInt64)) → Session n α}
    (begins : threads thread =
      dbMethod idx (Db.shardsInTurn .snapshotItems shards) >>= follow) :
    ∃ final last, Interleaving ServerCall.exec threads state
        (shards.map fun shard => copyEvent thread time (idx, shard)) final last ∧
      ∃ results, final thread = follow results := by
  induction shards generalizing threads state follow with
  | nil => exact ⟨threads, state, .nil _ _, [], begins⟩
  | cons shard shards ih =>
      rw [dbMethod_shardsInTurn_cons] at begins
      refine Interleaving.exists_cons (copyEvent thread time (idx, shard)) begins ?_
      obtain ⟨final, last, run, results, returns⟩ := ih (Function.update_self ..)
      exact ⟨final, last, run, _, returns⟩

/-- A client that sets `e` and then `b`. -/
def setTwo : Session 1 (Dbs 1) := do
  ServerCall.perform (.db onlyDb (.entry (asBytes "e") (.setStringRef (asBytes "1") none)))
  ServerCall.perform (.db onlyDb (.entry (asBytes "b") (.setStringRef (asBytes "2") none)))
  return fun _ => .empty

/-- A client that copies the database, and the client that sets two keys. -/
def copyAndSet : Bool → Session 1 (Dbs 1)
  | true => snapshotDbs (List.finRange 1)
  | false => setTwo

/-- The two writes. -/
def setEvent (key value : String) : Event (ServerCall.signature 1) Bool Moment :=
  ⟨false, .start, .db onlyDb (.entry (asBytes key) (.setStringRef (asBytes value) none))⟩

/-- The shards after the first. -/
def laterShards : List (Fin numShards) := (List.finRange 63).map (@Fin.succ 63)

/-- The first shard. -/
def firstShard : Fin numShards := (0 : Fin 64)

/-- The copying of some shards. -/
def copyEvents (shards : List (Fin numShards)) : Calls 1 Bool :=
  shards.map fun shard => copyEvent true .start (onlyDb, shard)

/-- Both keys are set after the first shard, that of `e`, has been copied. -/
def copyAndSetEvents : Calls 1 Bool :=
  copyEvent true .start (onlyDb, firstShard) :: setEvent "e" "1" :: setEvent "b" "2" ::
    copyEvents laterShards

theorem run_copyAndSet :
    ∃ final last, Interleaving ServerCall.exec copyAndSet ServerState.fresh
        copyAndSetEvents final last ∧
      ∃ copies, final true = .pure copies := by
  have shards : List.finRange numShards = firstShard :: laterShards := List.finRange_succ
  have begins : copyAndSet true = dbMethod onlyDb (Db.shardsInTurn .snapshotItems
      (firstShard :: laterShards)) >>= fun items =>
        .pure (Function.update (fun _ => .empty) onlyDb (Db.empty.setItems items.flatten)) := by
    rw [← shards]
    exact (Program.bind_pure' _).symm.trans (snapshotDbs_cons onlyDb [] .pure)
  rw [dbMethod_shardsInTurn_cons] at begins
  refine Interleaving.exists_cons (copyEvent true .start (onlyDb, firstShard)) begins
    (Interleaving.exists_cons (setEvent "e" "1") rfl
      (Interleaving.exists_cons (setEvent "b" "2") rfl ?_))
  exact Exists.imp (fun final => Exists.imp fun last => And.imp_right fun returns =>
    returns.elim fun results isFinal => ⟨_, isFinal⟩) (runs_shards .start 0 laterShards rfl)

/-- The copies of this run, and the moments whose contents they are. -/
theorem snapshotDbs_copies_copyAndSet :
    ∃ (copying rest : Calls 1 Bool) (copies : Dbs 1) (turns : Turns 1 Bool),
      copyAndSetEvents = copying ++ rest ∧
        CopiedInTurn true ServerState.fresh copying turns copies ∧
        ∀ later, (∀ event ∈ copying, event.time.now ≤ later) →
          ∀ moment, moment <+: copying → turns.Quiet moment →
            ConsistentCut later ServerState.fresh copying copies moment := by
  obtain ⟨final, last, run, copies, returns⟩ := run_copyAndSet
  have begins : copyAndSet true = snapshotDbs (List.finRange 1) >>= .pure :=
    (Program.bind_pure' _).symm
  obtain ⟨copying, rest, -, copies', turns, isAppend, -, -, copied, isCut⟩ :=
    snapshotDbs_copies begins run returns
  exact ⟨copying, rest, copies', turns, isAppend, copied, isCut⟩

/-- The contents of the database after some calls. -/
def contents (events : Calls 1 Bool) : Db :=
  (Event.after ServerCall.exec ServerState.fresh events).dbs onlyDb

/-- Copying leaves the live entries alone. -/
theorem contents_append_copyEvents
    (events : Calls 1 Bool) (shards : List (Fin numShards)) :
    (contents (events ++ copyEvents shards)).purge 0 = (contents events).purge 0 := by
  apply Db.ext_shards
  intro shard
  unfold contents
  rw [Event.after_append]
  refine @live_after 1 Bool (onlyDb, shard) _ _ (fun event inCopies => ?_)
    (fun event inCopies => ?_) _
  all_goals
    obtain ⟨other, -, rfl⟩ := List.mem_map.mp inCopies
  · exact .inr (.inr rfl)
  · exact UInt64.le_refl 0

theorem setStringRef_leaves
    (value : Bytes) (expireAtMs : Option UInt64) (entry : Option Entry) :
    (Shard.setStringRef value expireAtMs entry).2 = some ⟨.string value, expireAtMs⟩ := by
  cases entry <;> rfl

/-- What a write leaves under a key. -/
theorem lookup_contents_set (events : Calls 1 Bool) (key value probe : String) :
    (contents (events ++ [setEvent key value])).lookup (asBytes probe) =
      if asBytes key = asBytes probe then some ⟨.string (asBytes value), none⟩
      else (contents events).lookup (asBytes probe) := by
  unfold contents
  rw [Event.after_append]
  refine (Db.lookup_access _ _ _ _).trans ?_
  split
  · exact setStringRef_leaves _ _ _
  · rfl

/-- After both writes both keys are there. -/
theorem visible_contents (shards : List (Fin numShards)) {key : String}
    (isKey : key = "e" ∨ key = "b") :
    ((contents (copyEvent true .start (onlyDb, firstShard) :: setEvent "e" "1" ::
      setEvent "b" "2" :: copyEvents shards)).visible 0 (asBytes key)).isSome := by
  have sameVisible := Db.visible_eq_of_purge_eq (contents_append_copyEvents
    (([copyEvent true .start (onlyDb, firstShard)] ++ [setEvent "e" "1"]) ++ [setEvent "b" "2"])
    shards) (asBytes key)
  refine (congrArg Option.isSome sameVisible).trans ?_
  rw [Db.visible, lookup_contents_set, lookup_contents_set]
  rcases isKey with rfl | rfl
  · rw [if_neg (by decide), if_pos rfl]
    rfl
  · rw [if_pos rfl]
    rfl

/-- Before the second write its key is not there. -/
theorem visible_contents_none
    {moment : Calls 1 Bool}
    (isMoment : moment <+: [copyEvent true .start (onlyDb, firstShard), setEvent "e" "1"]) :
    (contents moment).visible 0 (asBytes "b") = none := by
  have atStart : (contents []).visible 0 (asBytes "b") = none := by
    rw [Db.visible, contents]
    exact congrArg (Option.filter (Entry.live 0)) (Db.lookup_empty _)
  have afterCopy : (contents [copyEvent true .start (onlyDb, firstShard)]).visible 0
      (asBytes "b") = none :=
    (Db.visible_eq_of_purge_eq (contents_append_copyEvents [] [firstShard]) _).trans atStart
  rcases List.prefix_cons_iff.mp isMoment with rfl | ⟨rest, rfl, isRest⟩
  · exact atStart
  · rcases List.prefix_cons_iff.mp isRest with rfl | ⟨end', rfl, isEnd⟩
    · exact afterCopy
    · rw [List.prefix_nil] at isEnd
      subst isEnd
      rw [Db.visible, show [_, _] = [_] ++ [_] from rfl, lookup_contents_set,
        if_neg (by decide)]
      exact afterCopy

/-- The moments of the run lie before the second write or after it. -/
theorem moment_cases {moment : Calls 1 Bool} (isMoment : moment <+: copyAndSetEvents) :
    moment <+: [copyEvent true .start (onlyDb, firstShard), setEvent "e" "1"] ∨
      ∃ shards, moment = copyEvent true .start (onlyDb, firstShard) :: setEvent "e" "1" ::
        setEvent "b" "2" :: copyEvents shards := by
  rcases List.prefix_cons_iff.mp isMoment with rfl | ⟨rest, rfl, isRest⟩
  · exact .inl List.nil_prefix
  · rcases List.prefix_cons_iff.mp isRest with rfl | ⟨rest', rfl, isRest'⟩
    · exact .inl ⟨[_], rfl⟩
    · rcases List.prefix_cons_iff.mp isRest' with rfl | ⟨copied, rfl, isCopied⟩
      · exact .inl (List.prefix_refl _)
      · rw [List.prefix_iff_eq_take, copyEvents, ← List.map_take] at isCopied
        exact .inr ⟨_, by rw [isCopied]; rfl⟩

theorem copyEvent_ne_setEvent
    {time : Moment} {shard : Fin numShards} {key value : String} :
    copyEvent true time (onlyDb, shard) ≠ setEvent key value := by
  intro same
  cases congrArg Event.thread same

/-- The first shard is copied first. -/
theorem before_firstShard
    {before : Calls 1 Bool} {time : Moment}
    (isPrefix : before ++ [copyEvent true time (onlyDb, firstShard)] <+: copyAndSetEvents) :
    before = [] := by
  cases before with
  | nil => rfl
  | cons event before =>
      have inLater := (List.cons_prefix_cons.mp isPrefix).2.subset
        (List.mem_append_right before (List.mem_singleton.mpr rfl))
      rcases List.mem_cons.mp inLater with isSet | inLater
      · exact absurd isSet copyEvent_ne_setEvent
      · rcases List.mem_cons.mp inLater with isSet | inLater
        · exact absurd isSet copyEvent_ne_setEvent
        · obtain ⟨shard, isLater, same⟩ := List.mem_map.mp inLater
          obtain ⟨index, -, rfl⟩ := List.mem_map.mp isLater
          cases congrArg Event.request same

/-- The shard of `b` is copied after the second write. -/
theorem before_laterShard
    {before : Calls 1 Bool} {time : Moment}
    (isPrefix : before ++ [copyEvent true time (onlyDb, shardIndex (asBytes "b"))] <+:
      copyAndSetEvents) :
    ∃ shards, before = copyEvent true .start (onlyDb, firstShard) :: setEvent "e" "1" ::
      setEvent "b" "2" :: copyEvents shards := by
  rcases moment_cases ((List.prefix_append _ _).trans isPrefix) with early | late
  · exfalso
    match before with
    | [] =>
        have isFirst := congrArg Event.request (List.cons_prefix_cons.mp isPrefix).1
        have different : shardIndex (asBytes "b") ≠ firstShard := by decide
        simp [copyEvent] at isFirst
        exact different isFirst
    | [_] =>
        exact copyEvent_ne_setEvent
          (List.cons_prefix_cons.mp (List.cons_prefix_cons.mp isPrefix).2).1
    | [_, _] =>
        exact copyEvent_ne_setEvent (List.cons_prefix_cons.mp
          (List.cons_prefix_cons.mp (List.cons_prefix_cons.mp isPrefix).2).2).1
    | _ :: _ :: _ :: more =>
        have short := early.length_le
        simp at short
  · exact late

/-- A key can be missing from the copies though a key set after it is there. -/
theorem not_always_consistentCut :
    ¬ ∀ (n : ℕ) (threads final : Bool → Session n (Dbs n)) (state last : ServerState n)
        (events : Calls n Bool) (copies : Dbs n) (later : UInt64),
      threads true = snapshotDbs (List.finRange n) →
        Interleaving ServerCall.exec threads state events final last →
        final true = .pure copies → (∀ event ∈ events, event.time.now ≤ later) →
        ∃ moment, ConsistentCut later state events copies moment := by
  intro always
  obtain ⟨final, last, run, copies, returns⟩ := run_copyAndSet
  have inTime : ∀ event ∈ copyAndSetEvents, event.time.now ≤ 0 := by
    intro event inEvents
    simp only [copyAndSetEvents, List.mem_cons, copyEvents, List.mem_map] at inEvents
    rcases inEvents with rfl | rfl | rfl | ⟨shard, -, rfl⟩ <;> exact UInt64.le_refl 0
  obtain ⟨moment, isMoment, isCut⟩ := always 1 _ _ _ _ _ copies 0 rfl run returns inTime
  have begins : copyAndSet true = snapshotDbs (List.finRange 1) >>= .pure :=
    (Program.bind_pure' _).symm
  obtain ⟨copying, rest, middle, copies', turns, isAppend, follows, ran, copied, -⟩ :=
    snapshotDbs_copies begins run returns
  have sameCopies : copies' = copies := by
    have stays := ran.final_of_pure follows
    rw [returns] at stays
    cases stays
    rfl
  subst sameCopies
  have inCopying : ∀ place, turns.upTo true place <+: copyAndSetEvents := fun place =>
    (copied.upTo place).trans ⟨rest, isAppend.symm⟩
  have inTime' : ∀ event ∈ copying, event.time.now ≤ 0 := fun event inCopying =>
    inTime event (isAppend ▸ List.mem_append_left _ inCopying)
  have atCut : ∀ key, (copies' onlyDb).visible 0 key = (contents moment).visible 0 key :=
    fun key => Db.visible_eq_of_purge_eq (isCut onlyDb) key
  have isShard : shardIndex (asBytes "e") = firstShard := by decide
  have noFirst : (copies' onlyDb).visible 0 (asBytes "e") = none := by
    rw [copied.visible inTime' 0 (asBytes "e"), isShard,
      before_firstShard (inCopying (onlyDb, firstShard)), Db.visible]
    exact congrArg (Option.filter (Entry.live 0)) (Db.lookup_empty _)
  have hasSecond : ((copies' onlyDb).visible 0 (asBytes "b")).isSome := by
    obtain ⟨shards, isBefore⟩ :=
      before_laterShard (inCopying (onlyDb, shardIndex (asBytes "b")))
    rw [copied.visible inTime' 0 (asBytes "b"), isBefore]
    exact visible_contents shards (.inr rfl)
  rcases moment_cases isMoment with early | ⟨shards, rfl⟩
  · rw [atCut, visible_contents_none early] at hasSecond
    cases hasSecond
  · have hasFirst := visible_contents shards (.inl rfl)
    rw [← atCut, noFirst] at hasFirst
    cases hasFirst

end Server
end Cache
end MuonJs
