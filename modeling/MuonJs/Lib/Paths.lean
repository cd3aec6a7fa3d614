import MuonJs.Lib.Interleaving
import MuonJs.Lib.Trace

/-!
# One thread of a run

What the calls of one thread return in a run is a path through its program.  A
fact about all paths of a program so holds of its thread in every interleaving,
and an invariant of the run bounds what the calls return.
-/

namespace MuonJs

/-- A call with what it returned. -/
abbrev Answer (S : Signature) := (request : S.Call) × S.Result request

variable {S : Signature} {ι Time α σ : Type}

namespace Program

/-- What is left of a program after its first calls were answered. -/
inductive Path : Program S α → List (Answer S) → Program S α → Prop
  | nil (program : Program S α) : Path program [] program
  | cons {request : S.Call} {next : S.Result request → Program S α}
      {answers : List (Answer S)} {last : Program S α}
      (result : S.Result request) (rest : Path (next result) answers last) :
      Path (.call request next) (⟨request, result⟩ :: answers) last

end Program

namespace Event

variable (exec : Time → Executor S σ)

/-- The calls of one thread in a run, with what they return. -/
def answers [DecidableEq ι] (thread : ι) : σ → List (Event S ι Time) → List (Answer S)
  | _, [] => []
  | state, event :: events =>
      if event.thread = thread then
        ⟨event.request, event.result exec state⟩ ::
          answers thread (event.next exec state) events
      else answers thread (event.next exec state) events

/-- Invariant rule: what every call returns in a state with the invariant, the
calls of a thread return in a run that keeps it. -/
theorem forall_mem_answers [DecidableEq ι]
    {assumed : σ → Event S ι Time → Prop} (invariant : σ → Prop)
    (shown : Answer S → Prop)
    (keeps : ∀ state event, invariant state → assumed state event →
      invariant (event.next exec state) ∧
        shown ⟨event.request, event.result exec state⟩)
    (thread : ι) {state : σ} (start : invariant state)
    {events : List (Event S ι Time)}
    (along : Trace.Along (fun state event => event.next exec state) assumed state
      events) :
    ∀ answer ∈ answers exec thread state events, shown answer := by
  induction events generalizing state with
  | nil => exact List.forall_mem_nil _
  | cons event events ih =>
      obtain ⟨kept, isShown⟩ := keeps state event start along.1
      unfold answers
      split
      · exact List.forall_mem_cons.mpr ⟨isShown, ih kept along.2⟩
      · exact ih kept along.2

end Event

/-- A thread of a run follows its program. -/
theorem Interleaving.path [DecidableEq ι]
    {exec : Time → Executor S σ} {threads final : ι → Program S α} {state last : σ}
    {events : List (Event S ι Time)}
    (run : Interleaving exec threads state events final last) (thread : ι) :
    (threads thread).Path (Event.answers exec thread state events) (final thread) := by
  induction run with
  | nil threads state => exact .nil _
  | @cons threads final state last events event follow issues rest ih =>
      unfold Event.answers
      by_cases isOwn : event.thread = thread
      · rw [if_pos isOwn]
        subst isOwn
        rw [Function.update_self] at ih
        rw [issues]
        exact .cons _ ih
      · rw [if_neg isOwn]
        rw [Function.update_of_ne (Ne.symm isOwn)] at ih
        exact ih

end MuonJs
