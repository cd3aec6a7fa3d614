import MuonJs.Lib.Program

/-!
# Interleavings of programs

Threads are programs over one signature that act on one state.  In a run they
issue their calls in any order, one call at a time.

Two neighbouring calls of different threads that commute can be exchanged
(`Interleaving.swap`).  From this follow the two rules below: the calls of a
thread can be made contiguous when no call that conflicts with a later one of
them falls between them (`Interleaving.gather`), and when this holds of every
thread, the threads can be run one after the other (`Interleaving.serializable`).
The calls need to commute in the states of an invariant only, which all calls of
the run keep.

Calls that touch different parts of the state commute, and so do calls that leave
the parts alone which both of them touch (`Footprints.commutes`).
-/

namespace MuonJs

/-- A call issued by a thread, with what the executor reads besides the state. -/
structure Event (S : Signature) (ι Time : Type) where
  thread : ι
  time : Time
  request : S.Call

variable {S : Signature} {ι Time α σ τ : Type}

namespace Event

/-- What a call returns. -/
def result (exec : Time → Executor S σ) (event : Event S ι Time) (state : σ) :
    S.Result event.request :=
  (exec event.time event.request state).1

/-- The state after a call. -/
def next (exec : Time → Executor S σ) (event : Event S ι Time) (state : σ) : σ :=
  (exec event.time event.request state).2

/-- The state after the calls of a run. -/
def after (exec : Time → Executor S σ) (state : σ) (events : List (Event S ι Time)) :
    σ :=
  events.foldl (fun current event => event.next exec current) state

theorem after_append
    (exec : Time → Executor S σ) (state : σ) (first second : List (Event S ι Time)) :
    after exec state (first ++ second) = after exec (after exec state first) second :=
  List.foldl_append

/-- The call keeps an invariant. -/
def Keeps (exec : Time → Executor S σ) (good : σ → Prop) (event : Event S ι Time) : Prop :=
  ∀ state, good state → good (event.next exec state)

/-- Two calls do the same in both orders, in every state of an invariant. -/
structure Commutes (exec : Time → Executor S σ) (good : σ → Prop)
    (first second : Event S ι Time) : Prop where
  first_result : ∀ state, good state →
    first.result exec (second.next exec state) = first.result exec state
  second_result : ∀ state, good state →
    second.result exec (first.next exec state) = second.result exec state
  state : ∀ state, good state →
    second.next exec (first.next exec state) =
      first.next exec (second.next exec state)

section Project

variable {exec : Time → Executor S σ} {exec' : Time → Executor S τ} {project : σ → τ}
  (simulates : ∀ time request state,
    exec' time request (project state) =
      ((exec time request state).1, project (exec time request state).2))
  (event : Event S ι Time) (state : σ)

include simulates

theorem result_project :
    event.result exec' (project state) = event.result exec state := by
  rw [Event.result, simulates]
  rfl

theorem next_project :
    event.next exec' (project state) = project (event.next exec state) := by
  rw [Event.next, simulates]
  rfl

end Project

end Event

/-- A run of threads: the calls in the order in which they are issued, what is
left of the threads, and the state at the end. -/
inductive Interleaving [DecidableEq ι] (exec : Time → Executor S σ) :
    (ι → Program S α) → σ → List (Event S ι Time) → (ι → Program S α) → σ → Prop
  | nil (threads : ι → Program S α) (state : σ) :
      Interleaving exec threads state [] threads state
  | cons {threads final : ι → Program S α} {state last : σ}
      {events : List (Event S ι Time)} (event : Event S ι Time)
      (follow : S.Result event.request → Program S α)
      (issues : threads event.thread = .call event.request follow)
      (rest : Interleaving exec
        (Function.update threads event.thread (follow (event.result exec state)))
        (event.next exec state) events final last) :
      Interleaving exec threads state (event :: events) final last

namespace Interleaving

variable [DecidableEq ι] {exec : Time → Executor S σ} {good : σ → Prop}
  {threads final : ι → Program S α} {state last : σ}
  {events : List (Event S ι Time)}

/-- A call whose result is known. -/
theorem step
    (event : Event S ι Time) {follow : S.Result event.request → Program S α}
    (issues : threads event.thread = .call event.request follow)
    {value : S.Result event.request} (returns : event.result exec state = value)
    (rest : Interleaving exec (Function.update threads event.thread (follow value))
      (event.next exec state) events final last) :
    Interleaving exec threads state (event :: events) final last := by
  subst returns
  exact .cons event follow issues rest

/-- A run that exists goes on from one that exists. -/
theorem exists_cons
    {claim : (ι → Program S α) → Prop} (event : Event S ι Time)
    {follow : S.Result event.request → Program S α}
    (issues : threads event.thread = .call event.request follow)
    (rest : ∃ final last, Interleaving exec
      (Function.update threads event.thread (follow (event.result exec state)))
      (event.next exec state) events final last ∧ claim final) :
    ∃ final last, Interleaving exec threads state (event :: events) final last ∧
      claim final := by
  obtain ⟨final, last, run, holds⟩ := rest
  exact ⟨final, last, .cons event follow issues run, holds⟩

/-- A run that is over. -/
theorem done (isFinal : threads = final) :
    Interleaving exec threads state [] final state := by
  subst isFinal
  exact .nil threads state

/-- The state at the end is the one its calls lead to. -/
theorem after_eq (run : Interleaving exec threads state events final last) :
    Event.after exec state events = last := by
  induction run with
  | nil threads state => rfl
  | cons event follow issues rest ih => exact ih

/-- What the calls after the first are exchanged for, the whole run is. -/
theorem cons_congr
    {event : Event S ι Time} {events' : List (Event S ι Time)}
    (run : Interleaving exec threads state (event :: events) final last)
    (exchange : ∀ threads, Interleaving exec threads (event.next exec state) events final last →
      Interleaving exec threads (event.next exec state) events' final last) :
    Interleaving exec threads state (event :: events') final last := by
  cases run with
  | cons _ follow issues rest =>
      exact .cons event follow issues (exchange _ rest)

/-- A run is cut after any of its calls. -/
theorem append_iff {events' : List (Event S ι Time)} :
    Interleaving exec threads state (events ++ events') final last ↔
      ∃ middle between,
        Interleaving exec threads state events middle between ∧
          Interleaving exec middle between events' final last := by
  induction events generalizing threads state with
  | nil =>
      constructor
      · intro run
        exact ⟨threads, state, .nil _ _, run⟩
      · rintro ⟨middle, between, first, second⟩
        cases first
        exact second
  | cons event events ih =>
      constructor
      · intro run
        cases run with
        | cons _ follow issues rest =>
            obtain ⟨middle, between, first, second⟩ := ih.mp rest
            exact ⟨middle, between, .cons event follow issues first, second⟩
      · rintro ⟨middle, between, first, second⟩
        cases first with
        | cons _ follow issues rest =>
            exact .cons event follow issues (ih.mpr ⟨middle, between, rest, second⟩)

/-- Two neighbouring calls of different threads that commute are exchanged. -/
theorem swap
    {first second : Event S ι Time}
    (run : Interleaving exec threads state (first :: second :: events) final last)
    (start : good state) (other : first.thread ≠ second.thread)
    (commutes : first.Commutes exec good second) :
    Interleaving exec threads state (second :: first :: events) final last := by
  cases run with
  | cons _ follow issues rest =>
      cases rest with
      | cons _ follow' issues' rest =>
          rw [Function.update_of_ne other.symm] at issues'
          refine .cons second follow' issues' (.cons first follow ?_ ?_)
          · rw [Function.update_of_ne other]
            exact issues
          · rw [commutes.first_result state start, Function.update_comm other.symm,
              ← commutes.state state start, ← commutes.second_result state start]
            exact rest

/-- A call is postponed after calls of other threads that it commutes with. -/
theorem postpone
    {event : Event S ι Time} {own : List (Event S ι Time)}
    (run : Interleaving exec threads state (event :: (own ++ events)) final last)
    (start : good state) (keeps : ∀ later ∈ own, later.Keeps exec good)
    (other : ∀ later ∈ own, event.thread ≠ later.thread)
    (commutes : ∀ later ∈ own, event.Commutes exec good later) :
    Interleaving exec threads state (own ++ event :: events) final last := by
  induction own generalizing threads state with
  | nil => exact run
  | cons later own ih =>
      have swapped := run.swap start (other later List.mem_cons_self)
        (commutes later List.mem_cons_self)
      refine swapped.cons_congr fun threads rest => ?_
      exact ih rest (keeps later List.mem_cons_self state start)
        (fun event inOwn => keeps event (List.mem_cons_of_mem _ inOwn))
        (fun event inOwn => other event (List.mem_cons_of_mem _ inOwn))
        fun event inOwn => commutes event (List.mem_cons_of_mem _ inOwn)

/-- The calls of a thread are brought to the front of a run, when the calls of
the other threads before them commute with them. -/
theorem gather
    (thread : ι)
    (run : Interleaving exec threads state events final last)
    (start : good state) (keeps : ∀ event ∈ events, event.Keeps exec good)
    (commutes : ∀ foreign own, [foreign, own].Sublist events →
      foreign.thread ≠ thread → own.thread = thread → foreign.Commutes exec good own) :
    Interleaving exec threads state
      (events.filter (·.thread = thread) ++ events.filter (·.thread ≠ thread))
      final last := by
  induction events generalizing threads state with
  | nil => exact run
  | cons event events ih =>
      have gathered : Interleaving exec threads state
          (event :: (events.filter (·.thread = thread) ++
            events.filter (·.thread ≠ thread))) final last :=
        run.cons_congr fun threads rest =>
          ih rest (keeps event List.mem_cons_self state start)
            (fun later isLater => keeps later (List.mem_cons_of_mem _ isLater))
            fun foreign own sublist => commutes foreign own (sublist.cons event)
      by_cases isOwn : event.thread = thread
      · rw [List.filter_cons_of_pos (by simpa using isOwn),
          List.filter_cons_of_neg (by simpa using isOwn)]
        exact gathered
      · rw [List.filter_cons_of_neg (by simpa using isOwn),
          List.filter_cons_of_pos (by simpa using isOwn)]
        refine gathered.postpone start (fun later inOwn => ?_) (fun later inOwn => ?_)
          fun later inOwn => ?_
        · exact keeps later (List.mem_cons_of_mem _ (List.mem_of_mem_filter inOwn))
        · have ownThread := List.of_mem_filter inOwn
          rw [decide_eq_true_eq] at ownThread
          rw [ownThread]
          exact isOwn
        · have ownThread := List.of_mem_filter inOwn
          rw [decide_eq_true_eq] at ownThread
          refine commutes event later ?_ isOwn ownThread
          exact List.Sublist.cons_cons event
            (List.singleton_sublist.mpr (List.mem_of_mem_filter inOwn))

/-- A run on one state is a run on what the state is mapped to. -/
theorem map
    {exec' : Time → Executor S τ} (project : σ → τ)
    (simulates : ∀ time request state,
      exec' time request (project state) =
        ((exec time request state).1, project (exec time request state).2))
    (run : Interleaving exec threads state events final last) :
    Interleaving exec' threads (project state) events final (project last) := by
  induction run with
  | nil threads state => exact .nil threads (project state)
  | @cons threads final state last events event follow issues rest ih =>
      refine .cons event follow issues ?_
      rw [Event.result_project simulates, Event.next_project simulates]
      exact ih

/-- A run on what the state is mapped to is a run on the state. -/
theorem lift
    {exec' : Time → Executor S τ} {project : σ → τ} {last : τ}
    (simulates : ∀ time request state,
      exec' time request (project state) =
        ((exec time request state).1, project (exec time request state).2))
    (run : Interleaving exec' threads (project state) events final last) :
    ∃ original, Interleaving exec threads state events final original ∧
      project original = last := by
  induction events generalizing threads state with
  | nil =>
      cases run
      exact ⟨state, .nil _ _, rfl⟩
  | cons event events ih =>
      cases run with
      | cons _ follow issues rest =>
          rw [Event.result_project simulates, Event.next_project simulates] at rest
          obtain ⟨original, lifted, isLast⟩ := ih rest
          exact ⟨original, .cons event follow issues lifted, isLast⟩

end Interleaving

/-! ## Threads run one after the other -/

namespace Program

/-- Run a program alone, with its calls at the given times. -/
def runAt (exec : Time → Executor S σ) :
    List Time → Program S α → σ → Option (α × σ)
  | [], .pure value, state => some (value, state)
  | time :: times, .call request next, state =>
      runAt exec times (next (exec time request state).1) (exec time request state).2
  | _, _, _ => none

/-- Run programs one after the other, with their calls at the given times. -/
def runSerially (exec : Time → Executor S σ) :
    List (List Time × Program S α) → σ → Option (List α × σ)
  | [], state => some ([], state)
  | (times, program) :: programs, state =>
      (program.runAt exec times state).bind fun outcome =>
        (runSerially exec programs outcome.2).map fun others =>
          (outcome.1 :: others.1, others.2)

section Project

variable {exec : Time → Executor S σ} {exec' : Time → Executor S τ} {project : σ → τ}
  (simulates : ∀ time request state,
    exec' time request (project state) =
      ((exec time request state).1, project (exec time request state).2))

include simulates

theorem runAt_project (times : List Time) (program : Program S α) (state : σ) :
    program.runAt exec' times (project state) =
      (program.runAt exec times state).map fun outcome =>
        (outcome.1, project outcome.2) := by
  induction times generalizing program state with
  | nil => cases program <;> rfl
  | cons time times ih =>
      cases program with
      | pure value => rfl
      | call request next =>
          rw [runAt, simulates]
          exact ih _ _

/-- Running programs one after the other on what the state is mapped to. -/
theorem runSerially_project
    (programs : List (List Time × Program S α)) (state : σ) :
    runSerially exec' programs (project state) =
      (runSerially exec programs state).map fun outcome =>
        (outcome.1, project outcome.2) := by
  induction programs generalizing state with
  | nil => rfl
  | cons program programs ih =>
      obtain ⟨times, program⟩ := program
      rw [runSerially, runSerially, runAt_project simulates]
      cases program.runAt exec times state with
      | none => rfl
      | some outcome =>
          rw [Option.map_some, Option.bind_some, Option.bind_some, ih]
          cases runSerially exec programs outcome.2 <;> rfl

end Project

theorem runSerially_append
    (exec : Time → Executor S σ) (first second : List (List Time × Program S α))
    (state : σ) :
    runSerially exec (first ++ second) state =
      (runSerially exec first state).bind fun outcome =>
        (runSerially exec second outcome.2).map fun others =>
          (outcome.1 ++ others.1, others.2) := by
  induction first generalizing state with
  | nil =>
      rw [List.nil_append, runSerially, Option.bind_some]
      cases runSerially exec second state <;> rfl
  | cons program first ih =>
      obtain ⟨times, program⟩ := program
      rw [List.cons_append, runSerially, runSerially]
      cases program.runAt exec times state with
      | none => rfl
      | some outcome =>
          rw [Option.bind_some, Option.bind_some, ih]
          cases runSerially exec first outcome.2 with
          | none => rfl
          | some outcome =>
              rw [Option.bind_some, Option.map_some, Option.bind_some]
              cases runSerially exec second outcome.2 <;> rfl

/-- Programs without calls return their values. -/
theorem runSerially_pure
    (exec : Time → Executor S σ) (values : List α) (state : σ) :
    runSerially exec (values.map fun value => ([], Program.pure value)) state =
      some (values, state) := by
  induction values with
  | nil => rfl
  | cons value values ih =>
      rw [List.map_cons, runSerially, runAt, Option.bind_some, ih, Option.map_some]

end Program

namespace Event

/-- Between two calls of a thread, the calls of other threads commute with the
later of the two. -/
def Undisturbed (exec : Time → Executor S σ) (good : σ → Prop) (thread : ι)
    (events : List (Event S ι Time)) : Prop :=
  ∀ first foreign later, [first, foreign, later].Sublist events →
    first.thread = thread → foreign.thread ≠ thread → later.thread = thread →
      foreign.Commutes exec good later

theorem Undisturbed.sublist
    {exec : Time → Executor S σ} {good : σ → Prop} {thread : ι}
    {fewer events : List (Event S ι Time)}
    (undisturbed : Undisturbed exec good thread events) (sublist : fewer.Sublist events) :
    Undisturbed exec good thread fewer :=
  fun first foreign later triple => undisturbed first foreign later (triple.trans sublist)

variable [DecidableEq ι]

/-- The times of the calls of a thread. -/
def times (events : List (Event S ι Time)) (thread : ι) : List Time :=
  (events.filter (·.thread = thread)).map time

/-- A thread has issued a call before another one has. -/
def StartsBefore (events : List (Event S ι Time)) (thread other : ι) : Prop :=
  ∃ begun rest, events = begun ++ rest ∧ (∃ event ∈ begun, event.thread = thread) ∧
    ∀ event ∈ begun, event.thread ≠ other

theorem times_filter_ne
    {events : List (Event S ι Time)} {thread other : ι} (different : other ≠ thread) :
    times (events.filter (·.thread ≠ thread)) other = times events other := by
  unfold times
  rw [List.filter_filter]
  congr 1
  apply List.filter_congr
  intro event _
  rw [Bool.and_eq_left_iff_imp, decide_eq_true_eq, decide_eq_true_eq]
  intro isOther
  rw [isOther]
  exact different

theorem StartsBefore.filter_ne
    {events : List (Event S ι Time)} {thread left right : ι}
    (before : StartsBefore events left right) (different : left ≠ thread) :
    StartsBefore (events.filter (·.thread ≠ thread)) left right := by
  obtain ⟨begun, rest, rfl, ⟨event, inBegun, isLeft⟩, notRight⟩ := before
  refine ⟨begun.filter (·.thread ≠ thread), rest.filter (·.thread ≠ thread),
    List.filter_append _ _, ⟨event, ?_, isLeft⟩, fun event inFilter => ?_⟩
  · rw [List.mem_filter, decide_eq_true_eq, isLeft]
    exact ⟨inBegun, different⟩
  · exact notRight event (List.mem_of_mem_filter inFilter)

end Event

namespace Interleaving

variable [DecidableEq ι] {exec : Time → Executor S σ} {good : σ → Prop}
  {threads final : ι → Program S α} {state last : σ}
  {events : List (Event S ι Time)}

/-- The calls of a run keep what each of them keeps. -/
theorem good_last
    (run : Interleaving exec threads state events final last) (start : good state)
    (keeps : ∀ event ∈ events, event.Keeps exec good) : good last := by
  induction run with
  | nil threads state => exact start
  | cons event follow issues rest ih =>
      exact ih (keeps event List.mem_cons_self _ start)
        fun later isLater => keeps later (List.mem_cons_of_mem _ isLater)

/-- A thread that issues no call stays as it is. -/
theorem final_eq
    (run : Interleaving exec threads state events final last)
    {thread : ι} (idle : ∀ event ∈ events, event.thread ≠ thread) :
    final thread = threads thread := by
  induction run with
  | nil threads state => rfl
  | @cons threads final state last events event follow issues rest ih =>
      rw [ih fun event inEvents => idle event (List.mem_cons_of_mem _ inEvents),
        Function.update_of_ne (idle event List.mem_cons_self).symm]

/-- A thread that has returned stays as it is. -/
theorem final_of_pure
    (run : Interleaving exec threads state events final last)
    {thread : ι} {value : α} (returned : threads thread = .pure value) :
    final thread = .pure value := by
  induction run with
  | nil threads state => exact returned
  | @cons threads final state last events event follow issues rest ih =>
      have other : thread ≠ event.thread := by
        intro isOwn
        rw [← isOwn, returned] at issues
        cases issues
      apply ih
      rw [Function.update_of_ne other]
      exact returned

/-- A thread that issues all calls of a run and returns is run alone. -/
theorem runAt_eq
    (run : Interleaving exec threads state events final last)
    {thread : ι} (isOwn : ∀ event ∈ events, event.thread = thread)
    {value : α} (returns : final thread = .pure value) :
    (threads thread).runAt exec (events.map Event.time) state = some (value, last) := by
  induction run with
  | nil threads state =>
      rw [returns]
      rfl
  | @cons threads final state last events event follow issues rest ih =>
      have follows := ih
        (fun event inEvents => isOwn event (List.mem_cons_of_mem _ inEvents)) returns
      rw [isOwn event List.mem_cons_self] at issues follows
      rw [Function.update_self] at follows
      rw [issues]
      exact follows

/-- The calls of the first thread of a run are brought to its front, when they
are undisturbed. -/
theorem gather_first
    {event : Event S ι Time}
    (run : Interleaving exec threads state (event :: events) final last)
    (start : good state) (keeps : ∀ own ∈ event :: events, own.Keeps exec good)
    (undisturbed : Event.Undisturbed exec good event.thread (event :: events)) :
    Interleaving exec threads state
      ((event :: events).filter (·.thread = event.thread) ++
        (event :: events).filter (·.thread ≠ event.thread)) final last := by
  apply run.gather event.thread start keeps
  intro foreign own pair isForeign isOwn
  have inRest : [foreign, own].Sublist events := by
    cases pair with
    | cons _ rest => exact rest
    | cons_cons _ rest => exact absurd rfl isForeign
  exact undisturbed event foreign own (inRest.cons_cons event) rfl isForeign isOwn

/-- Isolation rule: the undisturbed calls of a thread can be made contiguous. -/
theorem contiguous
    {thread : ι}
    (run : Interleaving exec threads state events final last)
    (start : good state) (keeps : ∀ event ∈ events, event.Keeps exec good)
    (undisturbed : Event.Undisturbed exec good thread events) :
    ∃ before own after, (before ++ own ++ after).Perm events ∧
      (∀ event ∈ own, event.thread = thread) ∧
      (∀ event ∈ before ++ after, event.thread ≠ thread) ∧
      Interleaving exec threads state (before ++ own ++ after) final last := by
  induction events generalizing threads state with
  | nil => exact ⟨[], [], [], .refl _, by simp, by simp, run⟩
  | cons event events ih =>
      by_cases isOwn : event.thread = thread
      · subst isOwn
        refine ⟨[], (event :: events).filter (·.thread = event.thread),
          (event :: events).filter (·.thread ≠ event.thread), ?_, ?_, ?_,
          run.gather_first start keeps undisturbed⟩
        · simpa using List.filter_append_perm (fun own => own.thread = event.thread)
            (event :: events)
        · intro own inOwn
          simpa using List.of_mem_filter inOwn
        · intro foreign inForeign
          simpa using List.of_mem_filter inForeign
      · cases run with
        | cons _ follow issues rest =>
            obtain ⟨before, own, after, perm, ownThread, foreignThread, contiguous⟩ :=
              ih rest (keeps event List.mem_cons_self state start)
                (fun later isLater => keeps later (List.mem_cons_of_mem _ isLater))
                (undisturbed.sublist (List.sublist_cons_self _ _))
            refine ⟨event :: before, own, after, perm.cons event, ownThread, ?_,
              .cons event follow issues contiguous⟩
            intro foreign inForeign
            rcases List.mem_cons.mp inForeign with rfl | inRest
            · exact isOwn
            · exact foreignThread foreign inRest

/-- The first thread of an undisturbed run is run alone, before all others. -/
theorem runAt_first
    {event : Event S ι Time}
    (run : Interleaving exec threads state (event :: events) final last)
    {value : α} (returns : final event.thread = .pure value)
    (start : good state) (keeps : ∀ own ∈ event :: events, own.Keeps exec good)
    (undisturbed : Event.Undisturbed exec good event.thread (event :: events)) :
    ∃ middle between, good between ∧
      (threads event.thread).runAt exec
          (Event.times (event :: events) event.thread) state = some (value, between) ∧
        (∀ thread, thread ≠ event.thread → middle thread = threads thread) ∧
        Interleaving exec middle between
          ((event :: events).filter (·.thread ≠ event.thread)) final last := by
  have gathered := run.gather_first start keeps undisturbed
  obtain ⟨middle, between, first, second⟩ := append_iff.mp gathered
  have isOwn : ∀ own ∈ (event :: events).filter (·.thread = event.thread),
      own.thread = event.thread := by
    intro own inOwn
    have holds := List.of_mem_filter inOwn
    rw [decide_eq_true_eq] at holds
    exact holds
  have isForeign : ∀ foreign ∈ (event :: events).filter (·.thread ≠ event.thread),
      foreign.thread ≠ event.thread := by
    intro foreign inForeign
    have holds := List.of_mem_filter inForeign
    rw [decide_eq_true_eq] at holds
    exact holds
  have returned : middle event.thread = .pure value := by
    rw [← second.final_eq isForeign]
    exact returns
  have stillGood : good between := first.good_last start fun own inOwn =>
    keeps own (List.mem_of_mem_filter inOwn)
  refine ⟨middle, between, stillGood, first.runAt_eq isOwn returned,
    fun thread other => ?_, second⟩
  refine first.final_eq fun own inOwn => ?_
  rw [isOwn own inOwn]
  exact other.symm

/-- A run of a thread that returns in the end is cut at the thread's first call. -/
theorem first_call
    {thread : ι} {request : S.Call} {follow : S.Result request → Program S α}
    (run : Interleaving exec threads state events final last)
    (begins : threads thread = .call request follow)
    {value : α} (returns : final thread = .pure value) :
    ∃ before time rest middle,
      events = before ++ ⟨thread, time, request⟩ :: rest ∧
        middle thread = follow (exec time request (Event.after exec state before)).1 ∧
        Interleaving exec middle
          (Event.after exec state (before ++ [⟨thread, time, request⟩])) rest final
          last := by
  induction run with
  | nil threads state =>
      rw [returns] at begins
      cases begins
  | @cons threads final state last events event follow' issues rest ih =>
      by_cases isOwn : event.thread = thread
      · obtain ⟨_, time, request'⟩ := event
        subst isOwn
        rw [begins] at issues
        cases issues
        exact ⟨[], time, events, _, rfl, Function.update_self .., rest⟩
      · obtain ⟨before, time, tail, middle, rfl, follows, ran⟩ := ih
          (by rw [Function.update_of_ne (Ne.symm isOwn)]; exact begins) returns
        exact ⟨event :: before, time, tail, middle, rfl, follows, ran⟩

/-- Serialization rule: threads whose calls are not disturbed by conflicting
calls of other threads return what they return when they are run one after the
other, in the order of their first calls. -/
theorem serializable
    (run : Interleaving exec threads state events final last)
    {values : ι → α} (returns : ∀ thread, final thread = .pure (values thread))
    (start : good state) (keeps : ∀ event ∈ events, event.Keeps exec good)
    (undisturbed : ∀ thread, Event.Undisturbed exec good thread events) :
    ∃ order : List ι, order.Nodup ∧
      (∀ thread, thread ∈ order ↔ ∃ event ∈ events, event.thread = thread) ∧
      (∀ thread other, Event.StartsBefore events thread other →
        order.idxOf thread < order.idxOf other) ∧
      Program.runSerially exec
          (order.map fun thread => (Event.times events thread, threads thread)) state =
        some (order.map values, last) := by
  induction length : events.length using Nat.strong_induction_on
    generalizing events threads state with
  | _ count ih =>
      cases events with
      | nil =>
          cases run
          refine ⟨[], List.nodup_nil, fun thread => by simp, ?_, rfl⟩
          rintro thread other ⟨begun, rest, isAppend, ⟨event, inBegun, _⟩, _⟩
          rw [List.nil_eq_append_iff] at isAppend
          rw [isAppend.1] at inBegun
          cases inBegun
      | cons event events =>
          obtain ⟨middle, between, stillGood, ranAlone, unchanged, rest⟩ :=
            run.runAt_first (returns event.thread) start keeps (undisturbed event.thread)
          have shorter :
              ((event :: events).filter (·.thread ≠ event.thread)).length < count := by
            rw [List.filter_cons_of_neg (by simp), ← length]
            exact Nat.lt_succ_of_le (List.length_filter_le _ _)
          obtain ⟨order, nodup, mem_order, ordered, serial⟩ :=
            ih _ shorter rest stillGood
              (fun own inFilter => keeps own (List.mem_of_mem_filter inFilter))
              (fun thread => (undisturbed thread).sublist List.filter_sublist) rfl
          have notFirst : ∀ thread ∈ order, thread ≠ event.thread := by
            intro thread inOrder
            obtain ⟨foreign, inForeign, rfl⟩ := (mem_order thread).mp inOrder
            have holds := List.of_mem_filter inForeign
            rw [decide_eq_true_eq] at holds
            exact holds
          refine ⟨event.thread :: order,
            List.nodup_cons.mpr ⟨fun inOrder => notFirst _ inOrder rfl, nodup⟩,
            fun thread => ?_, fun thread other before => ?_, ?_⟩
          · by_cases isFirst : thread = event.thread
            · rw [isFirst]
              exact ⟨fun _ => ⟨event, List.mem_cons_self, rfl⟩,
                fun _ => List.mem_cons_self⟩
            · rw [List.mem_cons, or_iff_right isFirst, mem_order]
              constructor
              · rintro ⟨foreign, inForeign, isThread⟩
                exact ⟨foreign, List.mem_of_mem_filter inForeign, isThread⟩
              · rintro ⟨foreign, inEvents, isThread⟩
                refine ⟨foreign, List.mem_filter.mpr ⟨inEvents, ?_⟩, isThread⟩
                rw [decide_eq_true_eq, isThread]
                exact isFirst
          · have laterFirst : event.thread ≠ other := by
              obtain ⟨begun, rest, isAppend, ⟨own, inBegun, _⟩, notOther⟩ := before
              cases begun with
              | nil => cases inBegun
              | cons first begun =>
                  rw [List.cons_append, List.cons.injEq] at isAppend
                  rw [isAppend.1]
                  exact notOther first List.mem_cons_self
            rw [List.idxOf_cons_ne order laterFirst]
            by_cases isFirst : thread = event.thread
            · rw [isFirst, List.idxOf_cons_self]
              exact Nat.succ_pos _
            · rw [List.idxOf_cons_ne order (Ne.symm isFirst)]
              exact Nat.succ_lt_succ (ordered thread other (before.filter_ne isFirst))
          · have sameThreads : (order.map fun thread =>
                  (Event.times (event :: events) thread, threads thread)) =
                order.map fun thread =>
                  (Event.times
                    ((event :: events).filter (·.thread ≠ event.thread)) thread,
                    middle thread) := by
              apply List.map_congr_left
              intro thread inOrder
              rw [Event.times_filter_ne (notFirst thread inOrder),
                unchanged thread (notFirst thread inOrder)]
            rw [List.map_cons, Program.runSerially, ranAlone, sameThreads,
              Option.bind_some, serial]
            rfl

/-- The serialization rule for finitely many threads: the order covers those
that issue no call too. -/
theorem serializable_all [Fintype ι]
    (run : Interleaving exec threads state events final last)
    {values : ι → α} (returns : ∀ thread, final thread = .pure (values thread))
    (start : good state) (keeps : ∀ event ∈ events, event.Keeps exec good)
    (undisturbed : ∀ thread, Event.Undisturbed exec good thread events) :
    ∃ order : List ι, order.Nodup ∧ (∀ thread, thread ∈ order) ∧
      (∀ thread other, Event.StartsBefore events thread other →
        order.idxOf thread < order.idxOf other) ∧
      Program.runSerially exec
          (order.map fun thread => (Event.times events thread, threads thread)) state =
        some (order.map values, last) := by
  obtain ⟨order, nodup, mem_order, ordered, serial⟩ :=
    run.serializable returns start keeps undisturbed
  let idle := (Finset.univ.toList : List ι).filter (· ∉ order)
  have notInOrder : ∀ thread ∈ idle, thread ∉ order := by
    intro thread inIdle
    simpa [idle] using inIdle
  have returned : (idle.map fun thread => (Event.times events thread, threads thread)) =
      (idle.map values).map fun value => ([], Program.pure value) := by
    rw [List.map_map]
    apply List.map_congr_left
    intro thread inIdle
    have silent : ∀ event ∈ events, event.thread ≠ thread := fun event inEvents isOwn =>
      notInOrder thread inIdle ((mem_order thread).mpr ⟨event, inEvents, isOwn⟩)
    have noTimes : Event.times events thread = [] := by
      rw [Event.times, List.map_eq_nil_iff, List.filter_eq_nil_iff]
      intro event inEvents
      simpa using silent event inEvents
    rw [noTimes, ← run.final_eq silent, returns]
    rfl
  refine ⟨order ++ idle, ?_, fun thread => ?_, fun thread other before => ?_, ?_⟩
  · rw [List.nodup_append]
    refine ⟨nodup, (Finset.nodup_toList _).filter _, fun thread inOrder other inIdle => ?_⟩
    rintro rfl
    exact notInOrder thread inIdle inOrder
  · rw [List.mem_append]
    by_cases inOrder : thread ∈ order
    · exact .inl inOrder
    · exact .inr (by simpa [idle] using inOrder)
  · have earlier := ordered thread other before
    have inOrder : thread ∈ order := by
      obtain ⟨begun, rest, rfl, ⟨event, inBegun, isOwn⟩, -⟩ := before
      exact (mem_order thread).mpr ⟨event, List.mem_append_left _ inBegun, isOwn⟩
    rw [List.idxOf_append_of_mem inOrder]
    by_cases otherInOrder : other ∈ order
    · rw [List.idxOf_append_of_mem otherInOrder]
      exact earlier
    · rw [List.idxOf_append_of_notMem otherInOrder]
      exact (List.idxOf_lt_length_of_mem inOrder).trans_le (Nat.le_add_right _ _)
  · rw [List.map_append, returned, Program.runSerially_append, serial,
      Option.bind_some, Program.runSerially_pure, Option.map_some, List.map_append]

end Interleaving

/-! ## Parts of the state -/

/-- The parts that a state is made of, and what calls have to do with them: a call leaves
the parts alone that it does not touch, and does not look at them. -/
structure Footprints (exec : Time → Executor S σ) (good : σ → Prop) (Part : Type) where
  View : Part → Type
  view : (part : Part) → σ → View part
  touches : S.Call → Part → Prop
  ext : ∀ left right, good left → good right → (∀ part, view part left = view part right) →
    left = right
  frame : ∀ time call part state, ¬touches call part →
    view part (exec time call state).2 = view part state
  looks : ∀ time call left right, (∀ part, touches call part → view part left = view part right) →
    (exec time call left).1 = (exec time call right).1 ∧
      ∀ part, touches call part → view part (exec time call left).2 = view part (exec time call right).2

namespace Footprints

variable {exec : Time → Executor S σ} {good : σ → Prop} {Part : Type}
  (footprints : Footprints exec good Part) {first second : Event S ι Time}

/-- The call leaves a part of the state alone. -/
def Leaves (event : Event S ι Time) (part : Part) : Prop :=
  ∀ state, good state →
    footprints.view part (event.next exec state) = footprints.view part state

/-- What a call does is the same after a call that leaves the parts alone which it touches. -/
theorem after_other
    (leaves : ∀ part, footprints.touches second.request part → footprints.Leaves first part)
    {state : σ} (isGood : good state) :
    second.result exec (first.next exec state) = second.result exec state ∧
      ∀ part, footprints.touches second.request part →
        footprints.view part (second.next exec (first.next exec state)) =
          footprints.view part (second.next exec state) :=
  footprints.looks second.time second.request _ _ fun part touched => leaves part touched state isGood

/-- Calls commute that leave the parts alone which both of them touch. -/
theorem commutes
    (firstKeeps : first.Keeps exec good) (secondKeeps : second.Keeps exec good)
    (apart : ∀ part, footprints.touches first.request part →
      footprints.touches second.request part →
        footprints.Leaves first part ∧ footprints.Leaves second part) :
    first.Commutes exec good second := by
  have firstLeaves (part : Part) (touched : footprints.touches second.request part) :
      footprints.Leaves first part := by
    by_cases both : footprints.touches first.request part
    · exact (apart part both touched).1
    · exact fun state _ => footprints.frame _ _ _ _ both
  have secondLeaves (part : Part) (touched : footprints.touches first.request part) :
      footprints.Leaves second part := by
    by_cases both : footprints.touches second.request part
    · exact (apart part touched both).2
    · exact fun state _ => footprints.frame _ _ _ _ both
  refine ⟨fun state isGood => (footprints.after_other secondLeaves isGood).1,
    fun state isGood => (footprints.after_other firstLeaves isGood).1, fun state isGood => ?_⟩
  refine footprints.ext _ _ (secondKeeps _ (firstKeeps _ isGood))
    (firstKeeps _ (secondKeeps _ isGood)) fun part => ?_
  by_cases ofFirst : footprints.touches first.request part
  · calc footprints.view part (second.next exec (first.next exec state))
        = footprints.view part (first.next exec state) :=
          secondLeaves part ofFirst _ (firstKeeps _ isGood)
      _ = footprints.view part (first.next exec (second.next exec state)) :=
          ((footprints.after_other secondLeaves isGood).2 part ofFirst).symm
  · have untouched : footprints.view part (first.next exec (second.next exec state)) =
        footprints.view part (second.next exec state) := footprints.frame _ _ _ _ ofFirst
    rw [untouched]
    by_cases ofSecond : footprints.touches second.request part
    · exact (footprints.after_other firstLeaves isGood).2 part ofSecond
    · exact (footprints.frame _ _ _ _ ofSecond).trans
        ((footprints.frame _ _ _ _ ofFirst).trans (footprints.frame _ _ _ _ ofSecond).symm)

end Footprints
end MuonJs
