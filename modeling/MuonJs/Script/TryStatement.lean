import MuonJs.Script.Walker

/-!
# Try statements

`parse_try_catch` beside the try statement of ES5 (12.14).  A block is evaluated by a
call, and what the call does is left open: the blocks have any bodies and end in any
way.

A list of statements looks at the pending loop control after each statement, so that a
finally block that is entered while control is pending may be left early.  It is evaluated
in full when it does what it does where nothing is pending.
-/

namespace MuonJs
namespace Script
namespace Walker

open Cache (Bytes asBytes)
open Procedure (Handler Entered trace trace_bind)

variable {σ μ : Type}

/-! ## Completions -/

/-- How a statement ends (ES5 8.9). -/
inductive Completion
  | normal (value : JSValue)
  | throws (thrown : JSValue)
  | returns (value : JSValue)
  | breaks (label : Option Bytes)
  | continues (label : Option Bytes)

/-- What is pending after a statement that gave a value. -/
def LoopControl.completion (value returned : JSValue) : LoopControl → Completion
  | .none => .normal value
  | .breakLoop => .breaks Option.none
  | .breakLabel label => .breaks (some label)
  | .continueLoop => .continues Option.none
  | .continueLabel label => .continues (some label)
  | .returnFrom => .returns returned

/-- The completion that a result tells with the context that it leaves: no value stands for
a throw as the value `exception` does. -/
def completion (ending : Option JSValue × State σ μ) : Completion :=
  match ending.1 with
  | none => .throws ending.2.exception
  | some .exception => .throws ending.2.exception
  | some value => ending.2.loopControl.completion value ending.2.returnValue

/-- The completion of a try statement whose finally clause ended in the second way. -/
def Completion.after (earlier : Completion) : Completion → Completion
  | .normal _ => earlier
  | last => last

/-- The result is that of a throw. -/
def IsThrow (result : Option JSValue) : Prop := result = none ∨ result = some .exception

instance (result : Option JSValue) : Decidable (IsThrow result) :=
  inferInstanceAs (Decidable (_ ∨ _))

theorem completion_of_throw {ending : Option JSValue × State σ μ} (isThrow : IsThrow ending.1) :
    completion ending = .throws ending.2.exception := by
  obtain ⟨result, state⟩ := ending
  rcases isThrow with rfl | rfl
  · rfl
  · rfl

theorem completion_of_value {ending : Option JSValue × State σ μ} {value : JSValue}
    (isValue : ending.1 = some value) (notThrow : ¬IsThrow ending.1) :
    completion ending = ending.2.loopControl.completion value ending.2.returnValue := by
  obtain ⟨result, state⟩ := ending
  cases isValue
  cases value with
  | exception => exact absurd (.inr rfl) notThrow
  | _ => rfl

theorem LoopControl.completion_ne_throws (value returned thrown : JSValue) (control : LoopControl) :
    control.completion value returned ≠ .throws thrown := by
  cases control <;> rintro ⟨⟩

theorem exists_value {result : Option JSValue} (notThrow : ¬IsThrow result) :
    ∃ value, result = some value := by
  cases result with
  | none => exact absurd (.inl rfl) notThrow
  | some value => exact ⟨value, rfl⟩

theorem completion_eq_throws_iff {ending : Option JSValue × State σ μ} {thrown : JSValue} :
    completion ending = .throws thrown ↔ IsThrow ending.1 ∧ ending.2.exception = thrown := by
  by_cases isThrow : IsThrow ending.1
  · rw [completion_of_throw isThrow, Completion.throws.injEq, and_iff_right isThrow]
  · obtain ⟨value, isValue⟩ := exists_value isThrow
    rw [completion_of_value isValue isThrow]
    exact iff_of_false (LoopControl.completion_ne_throws _ _ _ _) fun both => isThrow both.1

/-! ## The try statement of ES5 -/

section

variable (engine : Engine σ μ) (handler : Handler calls (State σ μ))

/-- The catch clause runs exactly when the try block threw, in a scope where its parameter is
what was thrown.  The relation tells what is entered and how the two blocks end. -/
inductive ClauseRuns (tried : Option JSValue × State σ μ) :
    Option (Option Bytes × Bytes) → List (Entered calls (State σ μ)) →
      Option JSValue × State σ μ → Prop
  | skipped {clause : Option (Option Bytes × Bytes)}
      (isSkipped : clause = none ∨ ∀ thrown, completion tried ≠ .throws thrown) :
      ClauseRuns tried clause [] tried
  | caught {param : Option Bytes} {body : Bytes} {thrown : JSValue} {scope : State σ μ}
      {binding : List (Entered calls (State σ μ))} {caught : Option JSValue × State σ μ}
      {log : List (Procedure.Completed calls)}
      (isThrown : completion tried = .throws thrown)
      (binds : trace handler (bindThrown engine callStatements param thrown tried.2) =
        some (((), scope), binding))
      (runs : handler (.catchScope body) scope = some (caught, log)) :
      ClauseRuns tried (some (param, body)) (binding ++ [⟨.catchScope body, scope, caught⟩])
        (caught.1, { caught.2 with envStack := caught.2.envStack.tail })

/-- The context with nothing pending. -/
def State.idle (state : State σ μ) : State σ μ := { state with loopControl := .none }

/-- A block ends in the first way where it is entered, and is executed in full: entered with
nothing pending, where it ends in the second way, it makes the same calls, gives the same
value and leaves the same context but for what is pending.  (The heap is a parameter: one
that counts the expressions evaluated tells every statement that is left out.) -/
def InFull (body : Bytes) (entered : State σ μ) (last clean : Option JSValue × State σ μ) :
    Prop :=
  ∃ log, handler (.block body) entered = some (last, log) ∧
    handler (.block body) entered.idle = some (clean, log) ∧
      last.1 = clean.1 ∧ last.2.idle = clean.2.idle

/-- The run of a try statement: what is entered and how it ends.  The finally block is entered
once and executed in full, and its own completion counts only when it is abrupt. -/
inductive Prescribed (parts : TryStatement) (start : State σ μ) :
    List (Entered calls (State σ μ)) → Completion → Prop
  | withoutFinally {tried before : Option JSValue × State σ μ}
      {log : List (Procedure.Completed calls)} {entries : List (Entered calls (State σ μ))}
      (isAbsent : parts.finallyBody = none)
      (tries : handler (.block parts.tryBody) start = some (tried, log))
      (clause : ClauseRuns engine handler tried parts.catchClause entries before) :
      Prescribed parts start (⟨.block parts.tryBody, start, tried⟩ :: entries)
        (completion before)
  | withFinally {tried before last clean : Option JSValue × State σ μ} {body : Bytes}
      {log : List (Procedure.Completed calls)}
      {entries : List (Entered calls (State σ μ))}
      (isBody : parts.finallyBody = some body)
      (tries : handler (.block parts.tryBody) start = some (tried, log))
      (clause : ClauseRuns engine handler tried parts.catchClause entries before)
      (finishes : InFull handler body before.2 last clean) :
      Prescribed parts start
        (⟨.block parts.tryBody, start, tried⟩ ::
          (entries ++ [⟨.block body, before.2, last⟩]))
        ((completion before).after (completion clean))

/-- After a throw nothing is pending, and an exception that is undefined is still set. -/
def KeepsException (thrown : JSValue) (clean : State σ μ) : Prop :=
  clean.loopControl = .none ∧ (thrown = .undefined → clean.exception = .undefined)

/-- What was pending before a finally block that ends normally is pending after it, with the
value of a return; what such a block sets itself is pending after it too. -/
def KeepsPending (before last clean : State σ μ) : Prop :=
  if clean.loopControl = .none then
    last.loopControl = before.loopControl ∧
      (before.loopControl = .returnFrom → clean.returnValue = before.returnValue)
  else last.loopControl = clean.loopControl

/-- What a finally block that does not throw leaves of the completion before it. -/
def KeepsEarlier (before last clean : Option JSValue × State σ μ) : Prop :=
  IsThrow clean.1 ∨
    if before.1 = some .exception then KeepsException before.2.exception clean.2
    else KeepsPending before.2 last.2 clean.2

/-- Where a finally clause follows, the blocks before it gave a value, and the finally block
does the same whether or not control is pending and keeps what it found. -/
def Settles (parts : TryStatement) (start : State σ μ) : Prop :=
  ∀ body tried log entries before, parts.finallyBody = some body →
    handler (.block parts.tryBody) start = some (tried, log) →
    ClauseRuns engine handler tried parts.catchClause entries before →
      before.1 ≠ none ∧ ∃ last clean,
        InFull handler body before.2 last clean ∧ KeepsEarlier before last clean

end

section

variable {engine : Engine σ μ} {handler : Handler calls (State σ μ)}

theorem ClauseRuns.unique {tried before before' : Option JSValue × State σ μ}
    {clause : Option (Option Bytes × Bytes)} {entries entries' : List (Entered calls (State σ μ))}
    (runs : ClauseRuns engine handler tried clause entries before)
    (runs' : ClauseRuns engine handler tried clause entries' before') :
    entries = entries' ∧ before = before' := by
  cases runs with
  | skipped isSkipped =>
      cases runs' with
      | skipped => exact ⟨rfl, rfl⟩
      | caught isThrown =>
          rcases isSkipped with isNone | notThrown
          · cases isNone
          · exact absurd isThrown (notThrown _)
  | caught isThrown binds caught =>
      cases runs' with
      | skipped isSkipped =>
          rcases isSkipped with isNone | notThrown
          · cases isNone
          · exact absurd isThrown (notThrown _)
      | caught isThrown' binds' caught' =>
          cases isThrown.symm.trans isThrown'
          cases binds.symm.trans binds'
          cases caught.symm.trans caught'
          exact ⟨rfl, rfl⟩

/-! ## The evaluator -/

/-- A first call, and what follows it. -/
theorem trace_call_bind {α : Type} (request : Call) (follow : Option JSValue → Walk σ μ α)
    (state : State σ μ) :
    trace handler (((Procedure.call request : Walk σ μ (Option JSValue)) >>= follow) state) =
      (handler request state).bind fun done =>
        (trace handler (follow done.1.1 done.1.2)).map fun rest =>
          (rest.1, ⟨request, state, done.1⟩ :: rest.2) := rfl

/-- The catch clause is evaluated as ES5 has it; the environment is popped where the clause
gave a value. -/
theorem clauseRuns_of_trace {clause : Option (Option Bytes × Bytes)}
    {tried before : Option JSValue × State σ μ} {entries : List (Entered calls (State σ μ))}
    (runs : trace handler (afterTry engine clause tried.1 tried.2) = some (before, entries)) :
    ∃ popped, ClauseRuns engine handler tried clause entries popped ∧
      popped.1 = before.1 ∧ completion popped = completion before ∧
        (before.1 ≠ none → popped = before) := by
  cases clause with
  | none =>
      cases runs
      exact ⟨tried, .skipped (.inl rfl), rfl, rfl, fun _ => rfl⟩
  | some clause =>
      obtain ⟨param, body⟩ := clause
      rw [afterTry] at runs
      by_cases isThrow : tried.1 = none ∨ tried.1 = some .exception
      · rw [if_pos isThrow] at runs
        have binds : trace handler
            ((enterCatch engine callStatements param >>= fun _ =>
              (Procedure.call (S := calls) (.catchScope body) >>= fun result =>
                leaveScope result : Walk σ μ (Option JSValue))) tried.2) =
              some (before, entries) := runs
        rw [Procedure.bind_apply, trace_bind, Option.bind_eq_some_iff] at binds
        obtain ⟨⟨⟨⟨⟩, scope⟩, binding⟩, binds, follows⟩ := binds
        rw [trace_call_bind, Option.map_eq_some_iff] at follows
        obtain ⟨⟨ending, rest⟩, follows, isEnding⟩ := follows
        rw [Option.bind_eq_some_iff] at follows
        obtain ⟨⟨caught, log⟩, isCaught, leaves⟩ := follows
        have isClause : ClauseRuns engine handler tried (some (param, body))
            (binding ++ [⟨.catchScope body, scope, caught⟩])
            (caught.1, { caught.2 with envStack := caught.2.envStack.tail }) :=
          .caught (completion_of_throw isThrow) binds isCaught
        obtain ⟨result, state⟩ := caught
        cases result with
        | none =>
            cases leaves
            cases isEnding
            exact ⟨_, isClause, rfl, rfl, fun isSome => absurd rfl isSome⟩
        | some value =>
            cases leaves
            cases isEnding
            exact ⟨_, isClause, rfl, rfl, fun _ => rfl⟩
      · rw [if_neg isThrow] at runs
        cases runs
        refine ⟨tried, .skipped (.inr fun thrown isThrown => ?_), rfl, rfl, fun _ => rfl⟩
        exact isThrow (completion_eq_throws_iff.mp isThrown).1

/-- The context after a finally block, with the exception that was pending before it. -/
def restored (before last : Option JSValue × State σ μ) : State σ μ :=
  { last.2 with
    exception := if before.1 = some .exception ∧ before.2.exception ≠ .undefined
      then before.2.exception else last.2.exception }

/-- How the try statement ends after its finally block. -/
def endingAfter (before last : Option JSValue × State σ μ) : Option JSValue × State σ μ :=
  if IsThrow last.1 then last else (before.1, restored before last)

theorem trace_runFinally (body : Bytes) (result : JSValue) (state : State σ μ) :
    trace handler (runFinally body result state) =
      (handler (.block body) state).map fun done =>
        (endingAfter (some result, state) done.1, [⟨.block body, state, done.1⟩]) := by
  rw [runFinally]
  change (handler (.block body) state).bind _ = _
  cases handler (.block body) state with
  | none => rfl
  | some done =>
      obtain ⟨⟨last, after⟩, log⟩ := done
      rw [Option.bind_some, Option.map_some]
      cases last with
      | none => rfl
      | some finallyVal =>
          by_cases isException : finallyVal = .exception
          · rw [isException]
            rfl
          · have notThrow : ¬IsThrow (some finallyVal) := by
              rintro (isNone | isSame)
              · cases isNone
              · exact isException (Option.some.inj isSame)
            dsimp only [Program.bind]
            rw [if_neg isException, endingAfter, if_neg notThrow, restored]
            by_cases isThrown : result = .exception
            · rw [if_pos isThrown]
              by_cases isUnset : state.exception = .undefined
              · rw [restoreException, if_pos isUnset, if_neg fun both => both.2 isUnset]
                rfl
              · rw [restoreException, if_neg isUnset, if_pos ⟨congrArg some isThrown, isUnset⟩]
                rfl
            · rw [if_neg isThrown, restoreException, if_pos rfl,
                if_neg fun both => isThrown (Option.some.inj both.1)]
              rfl

/-- What `parse_try_catch` evaluates: the blocks before the finally clause, and the finally
block when there is one and they gave a value. -/
theorem exists_blocks {src : Bytes} {parts : TryStatement} (isTry : tryParts src = some parts)
    {start : State σ μ} {ending : Option JSValue × State σ μ}
    {entries : List (Entered calls (State σ μ))}
    (runs : trace handler (parseTryCatch engine src start) = some (ending, entries)) :
    ∃ tried log binding before, handler (.block parts.tryBody) start = some (tried, log) ∧
      trace handler (afterTry engine parts.catchClause tried.1 tried.2) = some (before, binding) ∧
      ((∃ value body last log', before.1 = some value ∧ parts.finallyBody = some body ∧
          handler (.block body) before.2 = some (last, log') ∧ ending = endingAfter before last ∧
          entries = ⟨.block parts.tryBody, start, tried⟩ ::
            (binding ++ [⟨.block body, before.2, last⟩])) ∨
        (before.1 = none ∨ parts.finallyBody = none) ∧ ending = before ∧
          entries = ⟨.block parts.tryBody, start, tried⟩ :: binding) := by
  rw [parseTryCatch, isTry] at runs
  dsimp only at runs
  rw [trace_call_bind, Option.bind_eq_some_iff] at runs
  obtain ⟨⟨tried, log⟩, tries, runs⟩ := runs
  rw [Option.map_eq_some_iff] at runs
  obtain ⟨⟨ending', rest⟩, runs, isEnding⟩ := runs
  rw [Procedure.bind_apply, trace_bind, Option.bind_eq_some_iff] at runs
  obtain ⟨⟨before, binding⟩, clause, runs⟩ := runs
  rw [Option.map_eq_some_iff] at runs
  obtain ⟨⟨ending'', rest'⟩, runs, isRest⟩ := runs
  cases isRest
  cases isEnding
  refine ⟨tried, log, binding, before, tries, clause, ?_⟩
  obtain ⟨result, between⟩ := before
  cases result with
  | none =>
      cases runs
      exact .inr ⟨.inl rfl, rfl, by rw [List.append_nil]⟩
  | some value =>
      cases isFinally : parts.finallyBody with
      | none =>
          rw [isFinally] at runs
          cases runs
          exact .inr ⟨.inr rfl, rfl, by rw [List.append_nil]⟩
      | some body =>
          rw [isFinally] at runs
          dsimp only at runs
          rw [trace_runFinally, Option.map_eq_some_iff] at runs
          obtain ⟨⟨last, log'⟩, finishes, isLast⟩ := runs
          cases isLast
          exact .inl ⟨value, body, last, log', rfl, rfl, finishes, rfl, rfl⟩

/-! ## The comparison -/

theorem LoopControl.after_completion {control : LoopControl} (isPending : control ≠ .none)
    (earlier : Completion) (value other returned : JSValue) :
    earlier.after (control.completion value returned) = control.completion other returned := by
  cases control with
  | none => exact absurd rfl isPending
  | _ => rfl

theorem LoopControl.completion_eq_iff {control control' : LoopControl}
    {value returned returned' : JSValue} :
    control.completion value returned = control'.completion value returned' ↔
      control = control' ∧ (control' = .returnFrom → returned = returned') := by
  cases control <;> cases control' <;> simp [LoopControl.completion]

section Ends

variable {before last clean : Option JSValue × State σ μ}

/-- After a throw the finally block either keeps the exception or, against ES5, loses what it
leaves pending. -/
theorem completion_endingAfter_iff_keepsException (isThrown : before.1 = some .exception)
    (same : last.1 = clean.1) (sameContext : last.2.idle = clean.2.idle)
    (notThrow : ¬IsThrow clean.1) :
    completion (endingAfter before last) = (completion before).after (completion clean) ↔
      KeepsException before.2.exception clean.2 := by
  obtain ⟨value, isClean⟩ := exists_value notThrow
  have sameException : last.2.exception = clean.2.exception :=
    congrArg (fun state => state.exception) sameContext
  have isEnd : completion (before.1, restored before last) =
      .throws (restored before last).exception := completion_of_throw (.inr isThrown)
  rw [endingAfter, if_neg (same ▸ notThrow), isEnd, completion_of_throw (.inr isThrown), restored,
    completion_of_value isClean notThrow, KeepsException]
  dsimp only
  rw [isThrown, sameException]
  by_cases isPending : clean.2.loopControl = .none
  · rw [isPending, and_iff_right (rfl : LoopControl.none = .none), LoopControl.completion,
      Completion.after, Completion.throws.injEq]
    by_cases isUnset : before.2.exception = .undefined
    · rw [if_neg fun both => both.2 isUnset, isUnset]
      exact ⟨fun keeps _ => keeps, fun keeps => keeps rfl⟩
    · rw [if_pos ⟨rfl, isUnset⟩]
      exact iff_of_true rfl fun isSet => absurd isSet isUnset
  · rw [LoopControl.after_completion isPending _ _ .undefined]
    exact iff_of_false (LoopControl.completion_ne_throws _ _ _ _).symm
      fun keeps => isPending keeps.1

/-- After a value the finally block has to keep what is pending, or to replace it. -/
theorem completion_endingAfter_iff_keepsPending (notThrow : ¬IsThrow before.1)
    (same : last.1 = clean.1) (sameContext : last.2.idle = clean.2.idle)
    (notThrow' : ¬IsThrow clean.1) :
    completion (endingAfter before last) = (completion before).after (completion clean) ↔
      KeepsPending before.2 last.2 clean.2 := by
  obtain ⟨value, isValue⟩ := exists_value notThrow
  obtain ⟨other, isClean⟩ := exists_value notThrow'
  have sameReturn : last.2.returnValue = clean.2.returnValue :=
    congrArg (fun state => state.returnValue) sameContext
  have isEnd : completion (before.1, restored before last) =
      last.2.loopControl.completion value last.2.returnValue :=
    completion_of_value isValue notThrow
  rw [endingAfter, if_neg (same ▸ notThrow'), isEnd, completion_of_value isValue notThrow,
    completion_of_value isClean notThrow', sameReturn, KeepsPending]
  by_cases isPending : clean.2.loopControl = .none
  · rw [if_pos isPending, isPending, LoopControl.completion, Completion.after]
    exact LoopControl.completion_eq_iff
  · rw [if_neg isPending, LoopControl.after_completion isPending _ _ value,
      LoopControl.completion_eq_iff]
    exact and_iff_left fun _ => rfl

/-- The completion of a finally block executed in full is that of ES5 when the block keeps the
earlier one. -/
theorem completion_endingAfter_iff (isValue : before.1 ≠ none)
    (same : last.1 = clean.1) (sameContext : last.2.idle = clean.2.idle) :
    completion (endingAfter before last) = (completion before).after (completion clean) ↔
      KeepsEarlier before last clean := by
  by_cases throwsLast : IsThrow clean.1
  · have sameException : last.2.exception = clean.2.exception :=
      congrArg (fun state => state.exception) sameContext
    rw [endingAfter, if_pos (same ▸ throwsLast), completion_of_throw throwsLast,
      completion_of_throw (same ▸ throwsLast), sameException]
    exact iff_of_true rfl (.inl throwsLast)
  · rw [KeepsEarlier, or_iff_right throwsLast]
    by_cases isThrown : before.1 = some .exception
    · rw [if_pos isThrown]
      exact completion_endingAfter_iff_keepsException isThrown same sameContext throwsLast
    · rw [if_neg isThrown]
      exact completion_endingAfter_iff_keepsPending
        (fun throws => throws.elim isValue isThrown) same sameContext throwsLast

end Ends

section Known

variable {parts : TryStatement} {start : State σ μ}
  {tried before : Option JSValue × State σ μ} {log : List (Procedure.Completed calls)}
  {binding : List (Entered calls (State σ μ))}
  (tries : handler (.block parts.tryBody) start = some (tried, log))
  (clause : ClauseRuns engine handler tried parts.catchClause binding before)

include tries clause

/-- The runs of a try statement whose blocks before the finally clause are known. -/
theorem prescribed_iff {entries : List (Entered calls (State σ μ))} {final : Completion} :
    Prescribed engine handler parts start entries final ↔
      (parts.finallyBody = none ∧ entries = ⟨.block parts.tryBody, start, tried⟩ :: binding ∧
        final = completion before) ∨
      ∃ body last clean, parts.finallyBody = some body ∧
        InFull handler body before.2 last clean ∧
        entries = ⟨.block parts.tryBody, start, tried⟩ ::
          (binding ++ [⟨.block body, before.2, last⟩]) ∧
        final = (completion before).after (completion clean) := by
  constructor
  · rintro (⟨isAbsent, tries', clause'⟩ | ⟨isBody, tries', clause', finishes⟩)
    · cases tries.symm.trans tries'
      obtain ⟨rfl, rfl⟩ := clause.unique clause'
      exact .inl ⟨isAbsent, rfl, rfl⟩
    · cases tries.symm.trans tries'
      obtain ⟨rfl, rfl⟩ := clause.unique clause'
      exact .inr ⟨_, _, _, isBody, finishes, rfl, rfl⟩
  · rintro (⟨isAbsent, rfl, rfl⟩ | ⟨body, last, clean, isBody, finishes, rfl, rfl⟩)
    · exact .withoutFinally isAbsent tries clause
    · exact .withFinally isBody tries clause finishes

/-- What settles when the blocks before the finally clause are known. -/
theorem settles_iff {body : Bytes} (isBody : parts.finallyBody = some body) :
    Settles engine handler parts start ↔
      before.1 ≠ none ∧ ∃ last clean,
        InFull handler body before.2 last clean ∧ KeepsEarlier before last clean := by
  constructor
  · intro settles
    exact settles _ _ _ _ _ isBody tries clause
  · intro settles body' tried' log' binding' before' isBody' tries' clause'
    cases isBody.symm.trans isBody'
    cases tries.symm.trans tries'
    obtain ⟨-, rfl⟩ := clause.unique clause'
    exact settles

end Known

section Calm

variable {α β : Type}

/-- The call stays in the engine: no statements are evaluated. -/
def EngineCall.Inner : EngineCall σ → Prop
  | .statements .. => False
  | _ => True

/-- The operation has no statements evaluated. -/
def Inner (operation : Operation σ α) : Prop :=
  ∀ heap, (operation heap).Issues EngineCall.Inner

/-- A part of the evaluation that calls no block and does the same whatever is pending. -/
def Calm (walk : Walk σ μ α) : Prop :=
  ∀ state : State σ μ, ∃ (value : α) (after : State σ μ),
    after.returnValue = state.returnValue ∧
    ∀ control, walk { state with loopControl := control } =
      .pure (value, { after with loopControl := control })

theorem Calm.bind {walk : Walk σ μ α} {follow : α → Walk σ μ β} (first : Calm walk)
    (second : ∀ value, Calm (follow value)) : Calm (walk >>= follow) := by
  intro state
  obtain ⟨value, between, sameReturn, walks⟩ := first state
  obtain ⟨other, after, sameReturn', follows⟩ := second value between
  refine ⟨other, after, sameReturn'.trans sameReturn, fun control => ?_⟩
  rw [Procedure.bind_apply, walks, Program.pure_bind']
  exact follows control

theorem calm_carryOutProgram {program : Program (engineCalls σ) (α × σ)}
    (inner : program.Issues EngineCall.Inner) :
    Calm (carryOutProgram (S := calls) callStatements program : Walk σ μ α) := by
  induction program with
  | pure done => exact fun state => ⟨done.1, { state with heap := done.2 }, rfl, fun _ => rfl⟩
  | call request next ih =>
      cases request with
      | scopes => exact fun state => ih ⟨state.envStack, state.callFrames⟩ (inner.2 _) state
      | getException => exact fun state => ih state.exception (inner.2 _) state
      | setException value =>
          exact fun state => ih () (inner.2 ()) { state with exception := value }
      | updateCallFrameSlot env name value =>
          exact fun state => ih () (inner.2 ())
            { state with callFrames := updateCallFrameSlot env name value state.callFrames }
      | statements request heap => exact inner.1.elim

theorem calm_carryOut {operation : Operation σ α} (inner : Inner operation) :
    Calm (carryOut (S := calls) callStatements operation : Walk σ μ α) :=
  fun state => calm_carryOutProgram (inner state.heap) state

/-- To open the scope of a block has no statements evaluated. -/
structure InnerScopes (engine : Engine σ μ) : Prop where
  newObject : Inner engine.newObject
  setPropertyStr : ∀ obj name value, Inner (engine.setPropertyStr obj name value)
  predeclare : ∀ env name isConst, Inner (engine.predeclare env name isConst)

theorem calm_currentEnv : Calm (currentEnv engine : Walk σ μ JSValue) :=
  fun state => ⟨state.envStack.head?.getD engine.globalObject, state, rfl, fun _ => rfl⟩

theorem calm_enterBlock (scopes : InnerScopes engine) :
    Calm (enterBlock engine callStatements : Walk σ μ Unit) := by
  refine calm_currentEnv.bind fun parent => ?_
  refine (calm_carryOut scopes.newObject).bind fun env => ?_
  refine (calm_carryOut (scopes.setPropertyStr _ _ _)).bind fun _ => ?_
  refine (calm_carryOut (scopes.setPropertyStr _ _ _)).bind fun _ => ?_
  exact fun state => ⟨(), { state with envStack := env :: state.envStack }, rfl, fun _ => rfl⟩

theorem calm_predeclareIn (scopes : InnerScopes engine) (env : JSValue)
    (names : List (Bytes × Bool)) :
    Calm (predeclareIn engine callStatements env names : Walk σ μ Unit) := by
  induction names with
  | nil => exact fun state => ⟨(), state, rfl, fun _ => rfl⟩
  | cons name rest ih => exact (calm_carryOut (scopes.predeclare _ _ _)).bind fun _ => ih

/-- The evaluation of one expression that has no statements evaluated. -/
theorem calm_evalFunctionBody {body text : Bytes} (isBody : parseBodyToStmts body = some [text])
    (isExpression : statementForm text = .expression) (inner : Inner (engine.evalExpr text)) :
    Calm (evalFunctionBody engine body) := by
  intro state
  obtain ⟨value, after, sameReturn, evaluates⟩ := calm_carryOut inner state
  refine ⟨value, after, sameReturn, fun control => ?_⟩
  rw [evalFunctionBody, isBody]
  dsimp only
  rw [evalStatements, isExpression, evalStatement, Procedure.bind_apply, Procedure.bind_apply,
    evalExpr, perform, evaluates]
  cases value with
  | none => rfl
  | some last =>
      by_cases isIdle : control = .none
      · rw [isIdle]
        cases last <;> rfl
      · have pending : (afterCompound (some last) : Walk σ μ Step)
            { after with loopControl := control } =
              .pure (.done (some last), { after with loopControl := control }) := by
          rw [afterCompound, Procedure.bind_apply]
          exact congrFun (if_neg isIdle) _
        cases last with
        | exception => rfl
        | _ => exact congrArg (· >>= _) pending

/-- A block with such a body is run alike whatever is pending. -/
theorem run_block_of_calm {body : Bytes} (scopes : InnerScopes engine)
    (calm : Calm (evalFunctionBody engine body)) (fuel : ℕ) (state : State σ μ) :
    ∃ (value : Option JSValue) (after : State σ μ), after.returnValue = state.returnValue ∧
      ∀ control, run engine (fuel + 2) (.block body) { state with loopControl := control } =
        some ((value, { after with loopControl := control }),
          [⟨.functionBody body, value⟩]) := by
  have opens : Calm (enterBlock engine callStatements >>= fun _ =>
      predeclareBlockBindings engine callStatements ((splitStatements body).getD []) :
        Walk σ μ Unit) :=
    (calm_enterBlock scopes).bind fun _ =>
      calm_currentEnv.bind fun _ => calm_predeclareIn scopes _ _
  obtain ⟨⟨⟩, scope, sameReturn, opens⟩ := opens state
  obtain ⟨value, after, sameReturn', evaluates⟩ := calm scope
  refine ⟨value, { after with envStack := after.envStack.tail }, sameReturn'.trans sameReturn,
    fun control => ?_⟩
  have isBlock : evalBlock engine body = (enterBlock engine callStatements >>= fun _ =>
      predeclareBlockBindings engine callStatements ((splitStatements body).getD [])) >>= fun _ =>
        Procedure.call (S := calls) (.functionBody body) >>= fun result =>
          popEnv >>= fun _ => pure result := (bind_assoc _ _ _).symm
  have evaluated : run engine (fuel + 1) (.functionBody body)
      { scope with loopControl := control } =
        some ((value, { after with loopControl := control }), []) := by
    change Procedure.execute (run engine fuel) (evalFunctionBody engine body _) = _
    rw [evaluates]
    rfl
  change Procedure.execute (run engine (fuel + 1)) (evalBlock engine body _) = _
  rw [isBlock, Procedure.bind_apply, opens, Program.pure_bind']
  change (run engine (fuel + 1) (.functionBody body) { scope with loopControl := control }).bind
    _ = _
  rw [evaluated]
  rfl

/-- A try statement settles when its finally block is one such expression and
the blocks before it gave a value, or threw one that is not undefined. -/
theorem settles_of_calm {parts : TryStatement} {start : State σ μ} {fuel : ℕ}
    (scopes : InnerScopes engine)
    (calm : ∀ body, parts.finallyBody = some body → Calm (evalFunctionBody engine body))
    (gives : ∀ tried log entries before,
      run engine (fuel + 2) (.block parts.tryBody) start = some (tried, log) →
        ClauseRuns engine (run engine (fuel + 2)) tried parts.catchClause entries before →
          before.1 ≠ none ∧ (before.1 = some .exception → before.2.exception ≠ .undefined)) :
    Settles engine (run engine (fuel + 2)) parts start := by
  intro body tried log entries before isBody tries clause
  obtain ⟨isValue, isSet⟩ := gives tried log entries before tries clause
  obtain ⟨value, after, sameReturn, runs⟩ :=
    run_block_of_calm scopes (calm body isBody) fuel before.2
  refine ⟨isValue, _, _, ⟨_, runs before.2.loopControl, runs .none, rfl, rfl⟩, .inr ?_⟩
  by_cases isThrown : before.1 = some .exception
  · rw [if_pos isThrown]
    exact ⟨rfl, fun isUnset => absurd isUnset (isSet isThrown)⟩
  · rw [if_neg isThrown, KeepsPending, if_pos rfl]
    exact ⟨rfl, fun _ => sameReturn⟩

end Calm

/-! ### Two statements -/

theorem innerScopes_numberEngine : InnerScopes numberEngine where
  newObject _ := trivial
  setPropertyStr _ _ _ _ := trivial
  predeclare _ _ _ _ := trivial

end

end Walker
end Script
end MuonJs
