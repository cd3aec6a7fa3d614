import Mathlib

/-!
# Programs over atomic calls

A program is a tree of atomic calls: it either returns or issues one call and
continues with the call's result.  The tree fixes what one party does between
its calls and leaves open what other parties do there, so the same program can
be run alone or interleaved with others.

Running a program alone needs an executor, which says how a call changes the
shared state.  The rules below lift facts about single calls to whole programs:
simulation between two executors, invariants, and frame conditions.
-/

namespace MuonJs

/-- The atomic calls of a component and the type of each call's result. -/
structure Signature where
  Call : Type
  Result : Call → Type

/-- A program that issues calls of the signature and returns a value. -/
inductive Program (S : Signature) (α : Type)
  | pure (value : α)
  | call (request : S.Call) (next : S.Result request → Program S α)

/-- How the calls of a signature act on a shared state. -/
abbrev Executor (S : Signature) (σ : Type) :=
  (request : S.Call) → σ → S.Result request × σ

namespace Program

variable {S : Signature} {α β γ σ τ : Type}

/-- Sequential composition of programs. -/
def bind : Program S α → (α → Program S β) → Program S β
  | .pure value, follow => follow value
  | .call request next, follow =>
      .call request fun result => (next result).bind follow

instance : Monad (Program S) where
  pure := .pure
  bind := bind

/-- The program that issues one call and returns its result. -/
def perform (request : S.Call) : Program S (S.Result request) :=
  .call request .pure

@[simp] theorem pure_bind' (value : α) (follow : α → Program S β) :
    (.pure value : Program S α) >>= follow = follow value := rfl

@[simp] theorem call_bind
    (request : S.Call)
    (next : S.Result request → Program S α)
    (follow : α → Program S β) :
    (.call request next : Program S α) >>= follow =
      .call request fun result => next result >>= follow := rfl

@[simp] theorem perform_bind
    (request : S.Call)
    (follow : S.Result request → Program S β) :
    perform request >>= follow = .call request follow := rfl

@[simp] theorem pure_eq (value : α) :
    (Pure.pure value : Program S α) = .pure value := rfl

theorem bind_pure' (program : Program S α) :
    program >>= Program.pure = program := by
  induction program with
  | pure value => rfl
  | call request next ih =>
      rw [call_bind]
      congr 1
      funext result
      exact ih result

theorem bind_assoc'
    (program : Program S α)
    (first : α → Program S β)
    (second : β → Program S γ) :
    program >>= first >>= second =
      program >>= fun value => first value >>= second := by
  induction program with
  | pure value => rfl
  | call request next ih =>
      simp only [call_bind]
      congr 1
      funext result
      exact ih result

instance : LawfulMonad (Program S) :=
  LawfulMonad.mk' (Program S) bind_pure' (fun _ _ => rfl) bind_assoc'

/-- Run a program alone, from a state of the shared resource. -/
def run (exec : Executor S σ) : Program S α → σ → α × σ
  | .pure value, state => (value, state)
  | .call request next, state =>
      (next (exec request state).1).run exec (exec request state).2

@[simp] theorem run_pure
    (exec : Executor S σ) (value : α) (state : σ) :
    (.pure value : Program S α).run exec state = (value, state) := rfl

@[simp] theorem run_call
    (exec : Executor S σ)
    (request : S.Call)
    (next : S.Result request → Program S α)
    (state : σ) :
    (.call request next : Program S α).run exec state =
      (next (exec request state).1).run exec (exec request state).2 := rfl

@[simp] theorem run_bind
    (exec : Executor S σ)
    (program : Program S α)
    (follow : α → Program S β)
    (state : σ) :
    (program >>= follow).run exec state =
      (follow (program.run exec state).1).run exec
        (program.run exec state).2 := by
  induction program generalizing state with
  | pure value => rfl
  | call request next ih => exact ih _ _

/-- Every call the program can issue, whatever results it receives, satisfies
the predicate. -/
def Issues (allowed : S.Call → Prop) : Program S α → Prop
  | .pure _ => True
  | .call request next =>
      allowed request ∧ ∀ result, (next result).Issues allowed

theorem Issues.bind
    {allowed : S.Call → Prop}
    {program : Program S α}
    {follow : α → Program S β}
    (issues : program.Issues allowed)
    (followIssues : ∀ value, (follow value).Issues allowed) :
    (program >>= follow).Issues allowed := by
  induction program with
  | pure value => exact followIssues value
  | call request next ih =>
      exact ⟨issues.1, fun result => ih result (issues.2 result)⟩

theorem Issues.mono
    {allowed weaker : S.Call → Prop}
    {program : Program S α}
    (issues : program.Issues allowed)
    (weaken : ∀ request, allowed request → weaker request) :
    program.Issues weaker := by
  induction program with
  | pure value => trivial
  | call request next ih =>
      exact ⟨weaken request issues.1, fun result => ih result (issues.2 result)⟩

theorem Issues.mapM
    {allowed : S.Call → Prop}
    {step : γ → Program S α}
    (stepIssues : ∀ item, (step item).Issues allowed)
    (items : List γ) :
    (items.mapM step).Issues allowed := by
  induction items with
  | nil => trivial
  | cons item rest ih =>
      rw [List.mapM_cons]
      exact (stepIssues item).bind fun _ => ih.bind fun _ => trivial

/-- Invariant rule: what every allowed call keeps, the whole program keeps. -/
theorem run_preserves
    {exec : Executor S σ}
    {invariant : σ → Prop}
    {allowed : S.Call → Prop}
    (preserves : ∀ request state, allowed request → invariant state →
      invariant (exec request state).2)
    (program : Program S α)
    (issues : program.Issues allowed)
    {state : σ}
    (start : invariant state) :
    invariant (program.run exec state).2 := by
  induction program generalizing state with
  | pure value => exact start
  | call request next ih =>
      exact ih _ (issues.2 _) (preserves request state issues.1 start)

/-- Every call issued by the run from the state satisfies the predicate in the
state in which it is issued. -/
def Along (exec : Executor S σ) (good : S.Call → σ → Prop) :
    Program S α → σ → Prop
  | .pure _, _ => True
  | .call request next, state =>
      good request state ∧
        (next (exec request state).1).Along exec good (exec request state).2

@[simp] theorem along_pure
    (exec : Executor S σ) (good : S.Call → σ → Prop) (value : α) (state : σ) :
    (.pure value : Program S α).Along exec good state ↔ True := Iff.rfl

@[simp] theorem along_call
    (exec : Executor S σ) (good : S.Call → σ → Prop)
    (request : S.Call)
    (next : S.Result request → Program S α)
    (state : σ) :
    (.call request next : Program S α).Along exec good state ↔
      good request state ∧
        (next (exec request state).1).Along exec good
          (exec request state).2 := Iff.rfl

theorem along_bind
    (exec : Executor S σ) (good : S.Call → σ → Prop)
    (program : Program S α)
    (follow : α → Program S β)
    (state : σ) :
    (program >>= follow).Along exec good state ↔
      program.Along exec good state ∧
        (follow (program.run exec state).1).Along exec good
          (program.run exec state).2 := by
  induction program generalizing state with
  | pure value => simp
  | call request next ih =>
      simp only [call_bind, along_call, run_call, ih, and_assoc]

/-- Calls that satisfy the predicate in every state satisfy it along a run. -/
theorem Issues.along
    {exec : Executor S σ}
    {allowed : S.Call → Prop}
    {good : S.Call → σ → Prop}
    (always : ∀ request state, allowed request → good request state)
    {program : Program S α}
    (issues : program.Issues allowed)
    (state : σ) :
    program.Along exec good state := by
  induction program generalizing state with
  | pure value => trivial
  | call request next ih =>
      exact ⟨always request state issues.1, ih _ (issues.2 _) _⟩

/-- Simulation along one run: it is enough that the calls simulate each other
in the states of the run in which they are issued. -/
theorem run_simulates_along
    {exec : Executor S σ} {exec' : Executor S τ}
    {related : σ → τ → Prop}
    {good : S.Call → σ → Prop}
    (simulates : ∀ request left right, good request left → related left right →
      (exec request left).1 = (exec' request right).1 ∧
        related (exec request left).2 (exec' request right).2)
    (program : Program S α)
    {left : σ} {right : τ}
    (along : program.Along exec good left)
    (start : related left right) :
    (program.run exec left).1 = (program.run exec' right).1 ∧
      related (program.run exec left).2 (program.run exec' right).2 := by
  induction program generalizing left right with
  | pure value => exact ⟨rfl, start⟩
  | call request next ih =>
      obtain ⟨sameResult, stillRelated⟩ :=
        simulates request left right along.1 start
      simp only [run_call]
      rw [← sameResult]
      exact ih _ along.2 stillRelated

/-! ## Clocks -/

/-- An executor that reads a clock at every call; the state counts the calls,
and the call of number `n` reads `clock n`. -/
def timed {Time : Type} (exec : Time → Executor S σ) (clock : ℕ → Time) :
    Executor S (σ × ℕ) :=
  fun request state =>
    ((exec (clock state.2) request state.1).1,
      (exec (clock state.2) request state.1).2, state.2 + 1)

/-! ## Calls that end the process -/

/-- Run a program in a process that some calls end in some states. -/
def runGuarded (exec : Executor S σ) (fails : S.Call → σ → Bool) :
    Program S α → σ → Option (α × σ)
  | .pure value, state => some (value, state)
  | .call request next, state =>
      if fails request state then none
      else (next (exec request state).1).runGuarded exec fails (exec request state).2

theorem runGuarded_call
    (exec : Executor S σ) (fails : S.Call → σ → Bool)
    (request : S.Call)
    (next : S.Result request → Program S α)
    (state : σ) :
    (.call request next : Program S α).runGuarded exec fails state =
      if fails request state then none
      else (next (exec request state).1).runGuarded exec fails
        (exec request state).2 := rfl

theorem runGuarded_bind
    (exec : Executor S σ) (fails : S.Call → σ → Bool)
    (program : Program S α)
    (follow : α → Program S β)
    (state : σ) :
    (program >>= follow).runGuarded exec fails state =
      (program.runGuarded exec fails state).bind fun outcome =>
        (follow outcome.1).runGuarded exec fails outcome.2 := by
  induction program generalizing state with
  | pure value => rfl
  | call request next ih =>
      rw [call_bind, runGuarded_call, runGuarded_call]
      split
      · rfl
      · exact ih _ _

theorem runGuarded_map
    (exec : Executor S σ) (fails : S.Call → σ → Bool)
    (f : α → β)
    (program : Program S α)
    (state : σ) :
    (f <$> program).runGuarded exec fails state =
      (program.runGuarded exec fails state).map fun outcome =>
        (f outcome.1, outcome.2) := by
  rw [map_eq_pure_bind, runGuarded_bind, Option.map_eq_bind]
  rfl

/-! ## Programs that can fail -/

/-- Go on with the value of a success, stop at an error. -/
def andThen (first : Program S (Except ε α))
    (follow : α → Program S (Except ε β)) : Program S (Except ε β) :=
  first >>= fun result =>
    match result with
    | .ok value => follow value
    | .error reason => .pure (.error reason)

/-! ## Programs that issue programs -/

/-- Replace every call by a program over another signature. -/
def interpret {T : Signature}
    (handler : (request : S.Call) → Program T (S.Result request)) :
    Program S α → Program T α
  | .pure value => .pure value
  | .call request next =>
      handler request >>= fun result => (next result).interpret handler

@[simp] theorem interpret_call {T : Signature}
    (handler : (request : S.Call) → Program T (S.Result request))
    (request : S.Call)
    (next : S.Result request → Program S α) :
    (.call request next : Program S α).interpret handler =
      handler request >>= fun result => (next result).interpret handler := rfl

theorem interpret_bind {T : Signature}
    (handler : (request : S.Call) → Program T (S.Result request))
    (program : Program S α) (follow : α → Program S β) :
    (program >>= follow).interpret handler =
      program.interpret handler >>= fun value => (follow value).interpret handler := by
  induction program with
  | pure value => rfl
  | call request next ih =>
      rw [call_bind, interpret_call, interpret_call, bind_assoc']
      congr 1
      funext result
      exact ih result

/-- A program over another signature makes the calls that stand for its own. -/
theorem Issues.interpret {T : Signature}
    {handler : (request : S.Call) → Program T (S.Result request)}
    {allowed : S.Call → Prop} {allowed' : T.Call → Prop}
    (each : ∀ request, allowed request → (handler request).Issues allowed')
    {program : Program S α} (issues : program.Issues allowed) :
    (program.interpret handler).Issues allowed' := by
  induction program with
  | pure value => trivial
  | call request next ih =>
      exact (each request issues.1).bind fun result => ih result (issues.2 result)

end Program
end MuonJs
