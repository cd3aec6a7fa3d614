import MuonJs.Cache.Locks

/-!
# Commands of several clients at the same time

Each call takes the locks it needs and gives them back before the next call of
the command, so the calls of other clients can fall between two calls of one
command.  Commands are linearizable, and `EXEC` is isolated, when the calls of
others that fall there are on other keys than the later calls, or both only read
a key that does not expire meanwhile.
-/

namespace MuonJs
namespace Cache

/-! ## Commands -/

/-- The session of a command on one of the databases. -/
def commandSession (context : HandlerContext) (request : Fin n × Command × List Bytes) :
    Session n RespValue :=
  onDb request.1 (Handler.handleCommand context request.2.1 request.2.2)

/-- The replies and the store are those of a serial order of the whole commands,
each with its calls at the times at which it made them.  A command that made a
call before another one's first call comes first. -/
def Linearizable [DecidableEq ι]
    (context : HandlerContext) (commands : ι → Fin n × Command × List Bytes)
    (state : ServerState n) (events : List (Event (ServerCall.signature n) ι Moment))
    (replies : ι → RespValue) (last : ServerState n) : Prop :=
  ∃ order : List ι, order.Nodup ∧ (∀ client, client ∈ order) ∧
    (∀ client other, Event.StartsBefore events client other →
      order.idxOf client < order.idxOf other) ∧
    ∃ after,
      Program.runSerially ServerCall.exec
          (order.map fun client =>
            (Event.times events client, commandSession context (commands client)))
          state = some (order.map replies, after) ∧
        after.withoutLog = last.withoutLog

/-- Commands are linearizable, in every run in which the calls between two calls of a
command are apart from the later one. -/
theorem linearizable_of_apart [DecidableEq ι] [Fintype ι]
    (context : HandlerContext) (commands : ι → Fin n × Command × List Bytes)
    {state last : ServerState n}
    {events : List (Event (ServerCall.signature n) ι Moment)}
    {final : ι → Session n RespValue} {replies : ι → RespValue}
    (run : Interleaving ServerCall.exec
      (fun client => commandSession context (commands client)) state events final last)
    (returns : ∀ client, final client = .pure (replies client))
    {lasting : Set (Fin n × Bytes)} (lasts : ServerEvent.Lasts lasting state events)
    (apart : ∀ client, ServerEvent.Apart lasting client events) :
    Linearizable context commands state events replies last := by
  obtain ⟨order, nodup, complete, ordered, serial⟩ :=
    (run.map ServerState.withoutLog ServerCall.execStore_withoutLog).serializable_all
      returns lasts.steady lasts.keeps_steady fun client => (apart client).undisturbed lasts
  rw [Program.runSerially_project ServerCall.execStore_withoutLog,
    Option.map_eq_some_iff] at serial
  obtain ⟨⟨values, after⟩, serial, isOutcome⟩ := serial
  rw [Prod.mk.injEq] at isOutcome
  obtain ⟨rfl, sameStore⟩ := isOutcome
  exact ⟨order, nodup, complete, ordered, after, serial, sameStore⟩

/-- What a single-key method leaves under its key. -/
theorem ServerCall.lookup_exec_entry
    (moment : Moment) (idx : Fin n) (key : Bytes) (op : EntryOp)
    (state : ServerState n) :
    ((exec moment (.db idx (.entry key op)) state).2.dbs idx).lookup key =
      (op.apply moment.now ((state.dbs idx).lookup key)).2 := by
  change (Function.update state.dbs idx
    ((state.dbs idx).access key (op.apply moment.now)).2 idx).lookup key = _
  rw [Function.update_self, Db.lookup_access, if_pos rfl]

/-- The moment at which the runs below make their calls. -/
def Moment.start : Moment := ⟨0, .ok ()⟩

section Getset

variable {ι : Type} (idx : Fin n) (key : Bytes)

/-- Reading a string under a key that is not there. -/
theorem getString_absent
    {client : ι} {moment : Moment} {state : ServerState n}
    (absent : (state.dbs idx).lookup key = none) :
    Event.result (S := ServerCall.signature n) ServerCall.exec
        ⟨client, moment, .db idx (.entry key .getString)⟩ state = .ok none ∧
      ((Event.next (S := ServerCall.signature n) ServerCall.exec
        ⟨client, moment, .db idx (.entry key .getString)⟩ state).dbs idx).lookup key =
        none := by
  constructor
  · change (Shard.getString moment.now ((state.dbs idx).lookup key)).1 = _
    rw [absent]
    rfl
  · refine (ServerCall.lookup_exec_entry _ _ _ _ _).trans ?_
    rw [absent]
    rfl

end Getset

/-- `MSET` of two keys, while another client uses `SET` on the first of them. -/
def msetAndSet (client : Fin 2) : Fin 1 × Command × List Bytes :=
  if client = 0 then
    (onlyDb, .mset, [asBytes "a", asBytes "1", asBytes "b", asBytes "2"])
  else (onlyDb, .set, [asBytes "a", asBytes "3"])

/-- The `SET` comes between the two calls of the `MSET`. -/
def msetAndSetEvents : List (Event (ServerCall.signature 1) (Fin 2) Moment) :=
  [⟨0, .start, .db onlyDb (.entry (asBytes "a") (.setString (asBytes "1") none))⟩,
    ⟨1, .start, .db onlyDb (.entry (asBytes "a") (.setStringRef (asBytes "3") none))⟩,
    ⟨0, .start, .db onlyDb (.entry (asBytes "b") (.setString (asBytes "2") none))⟩]

theorem linearizable_msetAndSet :
    Linearizable ⟨none, true⟩ msetAndSet ServerState.fresh msetAndSetEvents
      (fun _ => .ok) (Event.after ServerCall.exec ServerState.fresh msetAndSetEvents) := by
  refine linearizable_of_apart ⟨none, true⟩ msetAndSet ?_ (fun _ => rfl) ServerEvent.lasts_nothing
    fun client => ServerEvent.apart_of_three (ServerCall.apart_of_keys ∅ (.inr ?_))
  · refine .cons _ _ rfl (.cons _ _ rfl (.cons _ _ rfl (.done (funext fun client => ?_))))
    fin_cases client <;> rfl
  · exact Set.disjoint_singleton.mpr (by decide)

/-- Two clients that get and set the key `k`. -/
def getsets (client : Fin 2) : Fin 1 × Command × List Bytes :=
  (onlyDb, .getset, [asBytes "k", if client = 0 then asBytes "1" else asBytes "2"])

/-- Both get the old value before one of them sets the new one. -/
def getsetEvents : List (Event (ServerCall.signature 1) (Fin 2) Moment) :=
  [⟨0, .start, .db onlyDb (.entry (asBytes "k") .getString)⟩,
    ⟨1, .start, .db onlyDb (.entry (asBytes "k") .getString)⟩,
    ⟨0, .start, .db onlyDb (.entry (asBytes "k") (.setString (asBytes "1") none))⟩,
    ⟨1, .start, .db onlyDb (.entry (asBytes "k") (.setString (asBytes "2") none))⟩]

theorem getset_follow (client : Fin 2) :
    ∃ follow, commandSession ⟨none, true⟩ (getsets client) =
        @Program.call (ServerCall.signature 1) _
          (.db onlyDb (.entry (asBytes "k") .getString)) follow ∧
      ∀ previous, follow (.ok previous) =
        @Program.call (ServerCall.signature 1) _
          (.db onlyDb (.entry (asBytes "k")
            (.setString (if client = 0 then asBytes "1" else asBytes "2") none)))
          fun _ => .pure (.blobOrNull previous) :=
  ⟨_, rfl, fun _ => rfl⟩

/-- Both clients are told that there was no value. -/
theorem run_getsets :
    Interleaving ServerCall.exec
      (fun client => commandSession ⟨none, true⟩ (getsets client)) ServerState.fresh
      getsetEvents (fun _ => .pure .null)
      (Event.after ServerCall.exec ServerState.fresh getsetEvents) := by
  obtain ⟨follow, begins, follows⟩ := getset_follow 0
  obtain ⟨follow', begins', follows'⟩ := getset_follow 1
  obtain ⟨first, absent⟩ := @getString_absent 1 (Fin 2) onlyDb (asBytes "k") 0 .start .fresh
    (Db.lookup_empty (asBytes "k"))
  obtain ⟨second, -⟩ := @getString_absent 1 (Fin 2) onlyDb (asBytes "k") 1 .start _ absent
  refine .step _ begins first (.step _ begins' second ?_)
  rw [follows, follows']
  refine .cons _ _ rfl (.cons _ _ rfl ?_)
  refine .done (funext fun client => ?_)
  fin_cases client <;> rfl

/-- The first of two getsets, run alone. -/
theorem runAt_getset_absent
    (client : Fin 2) {state : ServerState 1}
    (absent : (state.dbs onlyDb).lookup (asBytes "k") = none) :
    ∃ after, (commandSession ⟨none, true⟩ (getsets client)).runAt ServerCall.exec
        [.start, .start] state = some (.null, after) ∧
      ∃ value, (after.dbs onlyDb).lookup (asBytes "k") = some ⟨.string value, none⟩ := by
  obtain ⟨follow, begins, follows⟩ := getset_follow client
  have isPrevious :
      (ServerCall.exec .start (.db onlyDb (.entry (asBytes "k") .getString)) state).1 =
        .ok none :=
    (@getString_absent 1 (Fin 2) onlyDb (asBytes "k") client .start state absent).1
  rw [begins, Program.runAt, isPrevious, follows]
  refine ⟨_, rfl, if client = 0 then asBytes "1" else asBytes "2", ?_⟩
  exact ServerCall.lookup_exec_entry _ _ _ _ _

/-- The second of two getsets returns the value that the first has set. -/
theorem runAt_getset_present
    (client : Fin 2) {state : ServerState 1} {value : Bytes}
    (stored : (state.dbs onlyDb).lookup (asBytes "k") = some ⟨.string value, none⟩) :
    ∃ after, (commandSession ⟨none, true⟩ (getsets client)).runAt ServerCall.exec
      [.start, .start] state = some (.blob value, after) := by
  obtain ⟨follow, begins, follows⟩ := getset_follow client
  have isPrevious :
      (ServerCall.exec .start (.db onlyDb (.entry (asBytes "k") .getString)) state).1 =
        .ok (some value) := by
    change (Shard.getString 0 ((state.dbs onlyDb).lookup (asBytes "k"))).1 = _
    rw [stored]
    rfl
  rw [begins, Program.runAt, isPrevious, follows]
  exact ⟨_, rfl⟩

/-- Commands made of several calls are not linearizable: of two clients that get
and set a key, neither learns of the other's value. -/
theorem not_always_linearizable :
    ¬ ∀ (n clients : ℕ) (context : HandlerContext)
        (commands : Fin clients → Fin n × Command × List Bytes)
        (state last : ServerState n)
        (events : List (Event (ServerCall.signature n) (Fin clients) Moment))
        (replies : Fin clients → RespValue),
      Interleaving ServerCall.exec
          (fun client => commandSession context (commands client)) state events
          (fun client => .pure (replies client)) last →
        Linearizable context commands state events replies last := by
  intro always
  obtain ⟨order, nodup, complete, -, after, serial, -⟩ :=
    always 1 2 ⟨none, true⟩ getsets _ _ _ (fun _ => .null) run_getsets
  have perm : order.Perm [0, 1] :=
    (List.perm_ext_iff_of_nodup nodup (by decide)).mpr fun client =>
      ⟨fun _ => by fin_cases client <;> simp, fun _ => complete client⟩
  obtain ⟨first, second, rfl⟩ := List.length_eq_two.mp perm.length_eq
  have sameTimes : ∀ client : Fin 2,
      Event.times getsetEvents client = [.start, .start] := by
    intro client
    fin_cases client <;> rfl
  obtain ⟨between, ranFirst, value, stored⟩ :=
    @runAt_getset_absent first .fresh (Db.lookup_empty _)
  obtain ⟨last, ranSecond⟩ := runAt_getset_present second stored
  rw [List.map_cons, List.map_cons, List.map_nil, sameTimes, sameTimes,
    Program.runSerially, ranFirst, Option.bind_some, Program.runSerially, ranSecond] at serial
  cases serial

/-! ## `EXEC` -/

/-- The sessions around one `EXEC`: the connection that sends it, and the other
connections with their requests. -/
def Server.aroundExec (engine : ScriptEngine) (persist : Option Bool)
    (queuing : Client engine n) (args : List Bytes)
    (clients : ι → Client engine n) (requests : ι → List (Command × List Bytes)) :
    Option ι → Session n (List FastResponse × Client engine n)
  | none => serve engine persist queuing [(.execQueued, args)]
  | some other => serve engine persist (clients other) (requests other)

/-- The replies and the store are those of a run of the same calls in which the
calls of the thread follow one another. -/
def Isolated [DecidableEq ι] (threads final : ι → Session n α) (thread : ι)
    (state : ServerState n) (events : List (Event (ServerCall.signature n) ι Moment))
    (last : ServerState n) : Prop :=
  ∃ before own after last', (before ++ own ++ after).Perm events ∧
    (∀ event ∈ own, event.thread = thread) ∧
    (∀ event ∈ before ++ after, event.thread ≠ thread) ∧
    Interleaving ServerCall.exec threads state (before ++ own ++ after) final last' ∧
    last'.withoutLog = last.withoutLog

/-- `EXEC` is isolated, in every run in which the calls of other connections between two
of its calls are apart from the later one. -/
theorem Server.isolated_of_apart [DecidableEq ι]
    (engine : ScriptEngine) (persist : Option Bool)
    (queuing : Client engine n) (args : List Bytes)
    (clients : ι → Client engine n) (requests : ι → List (Command × List Bytes))
    {state last : ServerState n}
    {events : List (Event (ServerCall.signature n) (Option ι) Moment)}
    {final : Option ι → Session n (List FastResponse × Client engine n)}
    (run : Interleaving ServerCall.exec
      (aroundExec engine persist queuing args clients requests) state events final last)
    {lasting : Set (Fin n × Bytes)} (lasts : ServerEvent.Lasts lasting state events)
    (apart : ServerEvent.Apart lasting none events) :
    Isolated (aroundExec engine persist queuing args clients requests) final none
      state events last := by
  obtain ⟨before, own, after, perm, isOwn, isForeign, contiguous⟩ :=
    (run.map ServerState.withoutLog ServerCall.execStore_withoutLog).contiguous
      lasts.steady lasts.keeps_steady (apart.undisturbed lasts)
  obtain ⟨last', lifted, sameStore⟩ := contiguous.lift ServerCall.execStore_withoutLog
  exact ⟨before, own, after, last', perm, isOwn, isForeign, lifted, sameStore⟩

/-- A client that has queued two `SET`s. -/
def queuedSets : Client idleEngine 1 :=
  { Client.fresh with
    inMulti := true
    queued := [(.set, [asBytes "a", asBytes "1"]), (.set, [asBytes "b", asBytes "2"])] }

/-- A `SET` of another client on the first key comes between the two. -/
def queuedSetsEvents : List (Event (ServerCall.signature 1) (Option Unit) Moment) :=
  [⟨none, .start, .db onlyDb (.entry (asBytes "a") (.setStringRef (asBytes "1") none))⟩,
    ⟨some (), .start, .db onlyDb (.entry (asBytes "a") (.setStringRef (asBytes "3") none))⟩,
    ⟨none, .start, .db onlyDb (.entry (asBytes "b") (.setStringRef (asBytes "2") none))⟩]

/-- What is left of the sessions. -/
def queuedSetsOutcome : Option Unit → Session 1 (List FastResponse × Client idleEngine 1)
  | none => .pure ([.value (.array [.ok, .ok])],
      { queuedSets with inMulti := false, queued := [] })
  | some () => .pure ([.value .ok], Client.fresh)

theorem Server.isolated_queuedSets :
    Isolated
      (aroundExec idleEngine none queuedSets [] (fun _ : Unit => Client.fresh)
        fun _ => [(.set, [asBytes "a", asBytes "3"])])
      queuedSetsOutcome none ServerState.fresh queuedSetsEvents
      (Event.after ServerCall.exec ServerState.fresh queuedSetsEvents) := by
  refine isolated_of_apart idleEngine none queuedSets [] _ _ ?_ ServerEvent.lasts_nothing
    (ServerEvent.apart_of_three (ServerCall.apart_of_keys ∅ (.inr ?_)))
  · refine .cons _ _ rfl (.cons _ _ rfl (.cons _ _ rfl (.done (funext fun client => ?_))))
    cases client <;> rfl
  · exact Set.disjoint_singleton.mpr (by decide)

/-- A client that has queued `GET k` twice. -/
def queuedGets : Client idleEngine 1 :=
  { Client.fresh with
    inMulti := true
    queued := [(.get, [asBytes "k"]), (.get, [asBytes "k"])] }

/-- Another client sets the key between the two. -/
def queuedGetsEvents : List (Event (ServerCall.signature 1) (Option Unit) Moment) :=
  [⟨none, .start, .db onlyDb (.entry (asBytes "k") .getString)⟩,
    ⟨some (), .start, .db onlyDb (.entry (asBytes "k") (.setStringRef (asBytes "1") none))⟩,
    ⟨none, .start, .db onlyDb (.entry (asBytes "k") .getString)⟩]

/-- The sessions of both clients. -/
def queuedGetsSessions : Option Unit → Session 1 (List FastResponse × Client idleEngine 1) :=
  Server.aroundExec idleEngine none queuedGets [] (fun _ => Client.fresh)
    fun _ => [(.set, [asBytes "k", asBytes "1"])]

/-- The outcome: `EXEC` replies with a missing and a present value. -/
def queuedGetsOutcome : Option Unit → Session 1 (List FastResponse × Client idleEngine 1)
  | none => .pure ([.value (.array [.null, .blob (asBytes "1")])],
      { queuedGets with inMulti := false, queued := [] })
  | some () => .pure ([.value .ok], Client.fresh)

/-- What the two `GET`s of the `EXEC` reply. -/
theorem queuedGets_follow :
    ∃ follow, queuedGetsSessions none =
        @Program.call (ServerCall.signature 1) _
          (.db onlyDb (.entry (asBytes "k") .getString)) follow ∧
      ∀ first, ∃ follow', follow first =
          @Program.call (ServerCall.signature 1) _
            (.db onlyDb (.entry (asBytes "k") .getString)) follow' ∧
        ∀ second, follow' second =
          .pure ([.value (.array [Handler.orWrongType .blobOrNull first,
              Handler.orWrongType .blobOrNull second])],
            { queuedGets with inMulti := false, queued := [] }) :=
  ⟨_, rfl, fun _ => ⟨_, rfl, fun _ => rfl⟩⟩

theorem run_queuedGets :
    Interleaving ServerCall.exec queuedGetsSessions ServerState.fresh queuedGetsEvents
      queuedGetsOutcome
      (Event.after ServerCall.exec ServerState.fresh queuedGetsEvents) := by
  obtain ⟨follow, begins, follows⟩ := queuedGets_follow
  obtain ⟨follow', continues, ends⟩ := follows (.ok none)
  obtain ⟨first, absent⟩ :=
    @getString_absent 1 (Option Unit) onlyDb (asBytes "k") none .start .fresh
      (Db.lookup_empty (asBytes "k"))
  have second : Event.result (S := ServerCall.signature 1)
      (ι := Option Unit) ServerCall.exec
      ⟨none, .start, .db onlyDb (.entry (asBytes "k") .getString)⟩
      (Event.after (S := ServerCall.signature 1) ServerCall.exec ServerState.fresh
        (queuedGetsEvents.take 2)) = .ok (some (asBytes "1")) := by
    refine (congrArg (fun entry => (Shard.getString 0 entry).1)
      (ServerCall.lookup_exec_entry _ _ _ _ _)).trans ?_
    rw [EntryOp.apply, absent]
    rfl
  refine .step _ begins first (.cons _ _ rfl
    (.step _ continues second (.done (funext fun client => ?_))))
  · cases client with
    | none => exact ends _
    | some other => rfl

/-- A key that reads as missing is not there afterwards. -/
theorem getString_missing
    {now : UInt64} {entry : Option Entry}
    (missing : (Shard.getString now entry).1 = .ok none) :
    (Shard.getString now entry).2 = none := by
  unfold Shard.getString Shard.readAs Shard.live at missing ⊢
  cases found : entry.filter (Entry.live now) with
  | none => rfl
  | some stored =>
      rw [found] at missing
      dsimp only at missing
      split at missing <;> cases missing

theorem eq_missing_of_null
    {result : Fallible (Option Bytes)}
    (isNull : Handler.orWrongType RespValue.blobOrNull result = .null) :
    result = .ok none := by
  cases result with
  | error reason => cases isNull
  | ok value =>
      cases value with
      | none => rfl
      | some bytes => cases isNull

/-- Two `GET`s that follow one another do not find the key missing and then
present. -/
theorem runAt_queuedGets
    {times : List Moment} {state after : ServerState 1} {value : Bytes}
    {client : Client idleEngine 1} :
    (queuedGetsSessions none).runAt ServerCall.exec times state ≠
      some (([.value (.array [.null, .blob value])], client), after) := by
  obtain ⟨follow, begins, follows⟩ := queuedGets_follow
  intro ran
  rw [begins] at ran
  cases times with
  | nil => cases ran
  | cons time times =>
      obtain ⟨follow', continues, ends⟩ :=
        follows (ServerCall.exec time (.db onlyDb (.entry (asBytes "k") .getString)) state).1
      rw [Program.runAt, continues] at ran
      cases times with
      | nil => cases ran
      | cons time' times =>
          rw [Program.runAt, ends] at ran
          cases times with
          | cons _ _ => cases ran
          | nil =>
              simp only [Program.runAt, Option.some.injEq, Prod.mk.injEq, List.cons.injEq,
                FastResponse.value.injEq, RespValue.array.injEq] at ran
              obtain ⟨⟨⟨⟨isMissing, isPresent, -⟩, -⟩, -⟩, -⟩ := ran
              have gone : (Shard.getString time.now
                  ((state.dbs onlyDb).lookup (asBytes "k"))).2 = none :=
                getString_missing (eq_missing_of_null isMissing)
              have stillGone : ((ServerCall.exec time
                  (.db onlyDb (.entry (asBytes "k") .getString)) state).2.dbs onlyDb).lookup
                    (asBytes "k") = none :=
                (ServerCall.lookup_exec_entry _ _ _ _ _).trans gone
              have alsoMissing :=
                (@getString_absent 1 Unit onlyDb (asBytes "k") () time' _ stillGone).1
              rw [Event.result] at alsoMissing
              rw [alsoMissing] at isPresent
              cases isPresent

/-- `EXEC` is not isolated: another client sets a key between two `GET`s. -/
theorem Server.execQueued_not_isolated :
    ¬ ∀ (n : ℕ) (engine : ScriptEngine) (persist : Option Bool)
        (queuing : Client engine n) (args : List Bytes)
        (clients : Unit → Client engine n) (requests : Unit → List (Command × List Bytes))
        (state last : ServerState n)
        (events : List (Event (ServerCall.signature n) (Option Unit) Moment))
        (final : Option Unit → Session n (List FastResponse × Client engine n)),
      Interleaving ServerCall.exec
          (aroundExec engine persist queuing args clients requests) state events final
          last →
        Isolated (aroundExec engine persist queuing args clients requests) final none
          state events last := by
  intro always
  obtain ⟨before, own, after, last', -, isOwn, isForeign, run, -⟩ :=
    always 1 idleEngine none queuedGets [] _ _ _ _ _ _ run_queuedGets
  rw [List.append_assoc, Interleaving.append_iff] at run
  obtain ⟨middle, between, ranBefore, run⟩ := run
  rw [Interleaving.append_iff] at run
  obtain ⟨middle', between', ranOwn, ranAfter⟩ := run
  have isStart := ranBefore.final_eq fun event inBefore =>
    isForeign event (List.mem_append_left _ inBefore)
  have isEnd := ranAfter.final_eq fun event inAfter =>
    isForeign event (List.mem_append_right _ inAfter)
  have ranAlone := ranOwn.runAt_eq isOwn isEnd.symm
  rw [isStart] at ranAlone
  exact runAt_queuedGets ranAlone

end Cache
end MuonJs
