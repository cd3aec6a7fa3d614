import Mathlib

/-!
# Runs of a system

A system takes one step for each event of a list.  `Trace.Along` says that every
event meets a condition in the state in which it happens, and the rules below
derive such statements for whole runs from what one step preserves.
-/

namespace MuonJs
namespace Trace

variable {State Event : Type}

/-- Every event satisfies the predicate in the state in which it happens. -/
def Along (step : State → Event → State) (good : State → Event → Prop) :
    State → List Event → Prop
  | _, [] => True
  | state, event :: events =>
      good state event ∧ Along step good (step state event) events

@[simp] theorem along_nil
    (step : State → Event → State) (good : State → Event → Prop)
    (state : State) :
    Along step good state [] ↔ True := Iff.rfl

@[simp] theorem along_cons
    (step : State → Event → State) (good : State → Event → Prop)
    (state : State) (event : Event) (events : List Event) :
    Along step good state (event :: events) ↔
      good state event ∧ Along step good (step state event) events := Iff.rfl

/-- What holds at every step holds along every run. -/
theorem along_of_forall
    {step : State → Event → State} {good : State → Event → Prop}
    (always : ∀ state event, good state event)
    (state : State) (events : List Event) :
    Along step good state events := by
  induction events generalizing state with
  | nil => trivial
  | cons event events ih => exact ⟨always state event, ih _⟩

/-- Invariant rule: from a state with the invariant, a run whose steps meet the
assumption keeps the invariant and shows the conclusion at every step. -/
theorem along_of_invariant
    {step : State → Event → State} {assumed shown : State → Event → Prop}
    (invariant : State → Prop)
    (keeps : ∀ state event, invariant state → assumed state event →
      invariant (step state event) ∧ shown state event)
    {state : State} (start : invariant state) {events : List Event}
    (along : Along step assumed state events) :
    Along step shown state events := by
  induction events generalizing state with
  | nil => trivial
  | cons event events ih =>
      obtain ⟨stillInvariant, isShown⟩ := keeps state event start along.1
      exact ⟨isShown, ih stillInvariant along.2⟩

end Trace
end MuonJs
