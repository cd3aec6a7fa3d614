import MuonJs.Lib.Interleaving

/-!
# Programs that run alike

A coupling says which calls of two programs stand for one another and which of
their results do.  Programs are coupled when they make such calls in the same
order, whatever such results they receive.  When calls that stand for one another
keep two states related, coupled programs do so too, also when several of them
are interleaved (`Interleaving.coupled`).
-/

namespace MuonJs

/-- Which calls stand for one another, with the results of theirs that do. -/
abbrev Coupling (S : Signature) :=
  (left right : S.Call) → (S.Result left → S.Result right → Prop) → Prop

variable {S : Signature} {α β γ δ σ τ ι Time : Type}

namespace Program

/-- Programs that make calls that stand for one another and return values that
do. -/
inductive Coupled (coupling : Coupling S) (values : α → β → Prop) :
    Program S α → Program S β → Prop
  | pure {left : α} {right : β} (alike : values left right) :
      Coupled coupling values (.pure left) (.pure right)
  | call {left right : S.Call} {results : S.Result left → S.Result right → Prop}
      {next : S.Result left → Program S α} {next' : S.Result right → Program S β}
      (coupled : coupling left right results)
      (follow : ∀ result result', results result result' →
        Coupled coupling values (next result) (next' result')) :
      Coupled coupling values (.call left next) (.call right next')

namespace Coupled

variable {coupling : Coupling S} {values : α → β → Prop}
  {left : Program S α} {right : Program S β}

theorem bind
    {follow : α → Program S γ} {follow' : β → Program S δ} {outcomes : γ → δ → Prop}
    (coupled : Coupled coupling values left right)
    (follows : ∀ value value', values value value' →
      Coupled coupling outcomes (follow value) (follow' value')) :
    Coupled coupling outcomes (left >>= follow) (right >>= follow') := by
  induction coupled with
  | pure alike => exact follows _ _ alike
  | call coupled _ ih => exact .call coupled ih

/-- A program is coupled with itself when its calls are. -/
theorem refl
    {allowed : S.Call → Prop} (same : ∀ call, allowed call → coupling call call Eq)
    {program : Program S α} (issues : program.Issues allowed) :
    Coupled coupling Eq program program := by
  induction program with
  | pure value => exact .pure rfl
  | call request next ih =>
      refine .call (same request issues.1) ?_
      rintro result _ rfl
      exact ih result (issues.2 result)

theorem call_inv
    {call : S.Call} {next : S.Result call → Program S α}
    (coupled : Coupled coupling values (.call call next) right) :
    ∃ (call' : S.Call) (next' : S.Result call' → Program S β)
      (results : S.Result call → S.Result call' → Prop),
      right = .call call' next' ∧ coupling call call' results ∧
        ∀ result result', results result result' →
          Coupled coupling values (next result) (next' result') := by
  cases coupled with
  | call coupled follow => exact ⟨_, _, _, rfl, coupled, follow⟩

end Coupled
end Program

/-- A run of threads is matched, call by call, by a run of coupled threads from a
related state. -/
theorem Interleaving.coupled [DecidableEq ι]
    {exec : Time → Executor S σ} {exec' : Time → Executor S τ}
    {coupling : Coupling S} {values : α → β → Prop} {related : σ → τ → Prop}
    (simulates : ∀ time call call' results state state',
      coupling call call' results → related state state' →
        results (exec time call state).1 (exec' time call' state').1 ∧
          related (exec time call state).2 (exec' time call' state').2)
    {threads final : ι → Program S α} {threads' : ι → Program S β}
    {state last : σ} {state' : τ} {events : List (Event S ι Time)}
    (run : Interleaving exec threads state events final last)
    (start : ∀ thread, (threads thread).Coupled coupling values (threads' thread))
    (alike : related state state') :
    ∃ events' final' last', Interleaving exec' threads' state' events' final' last' ∧
      (∀ thread, (final thread).Coupled coupling values (final' thread)) ∧
      related last last' ∧
      events'.map (fun event => (event.thread, event.time)) =
        events.map fun event => (event.thread, event.time) := by
  induction run generalizing threads' state' with
  | nil threads state => exact ⟨[], threads', state', .nil _ _, start, alike, rfl⟩
  | cons event follow issues rest ih =>
      have isCoupled := start event.thread
      rw [issues] at isCoupled
      obtain ⟨call', next', results, issues', paired, follows⟩ := isCoupled.call_inv
      obtain ⟨sameResult, stillAlike⟩ :=
        simulates event.time event.request call' results _ _ paired alike
      let event' : Event S ι Time := ⟨event.thread, event.time, call'⟩
      obtain ⟨events', final', last', run', ends, lastAlike, sameEvents⟩ :=
        @ih (Function.update threads' event.thread
            (next' (event'.result exec' state')))
          (event'.next exec' state')
          (by
            intro thread
            by_cases same : thread = event.thread
            · subst same
              rw [Function.update_self, Function.update_self]
              exact follows _ _ sameResult
            · rw [Function.update_of_ne same, Function.update_of_ne same]
              exact start thread)
          stillAlike
      refine ⟨event' :: events', final', last', ?_, ends, lastAlike, ?_⟩
      · exact .cons event' next' issues' run'
      · rw [List.map_cons, List.map_cons, sameEvents]

end MuonJs
