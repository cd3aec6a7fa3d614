import Mathlib

/-!
# Recursive descent with fuel

Parsers that take fuel, seen through what they come to when there is enough of
it.  A level of left-associative operators is an operand and a loop, each turn of
which reads an operator and an operand; the loop can be left open, so that an
operand of the same level may stand to the left of its operator.  A parse that is
bound to fail gives nothing, or stops at an input at which every loop stops.
-/

namespace MuonJs
namespace Descent

open Filter (Eventually atTop)

/-! ## Enough fuel -/

/-- With enough fuel, the outcome is always the same. -/
def Settles {α : Type*} (run : ℕ → α) (outcome : α) : Prop :=
  ∀ᶠ fuel in atTop, run fuel = outcome

namespace Settles

variable {α β : Type*} {run : ℕ → α} {outcome other : α}

theorem of_forall (always : ∀ fuel, run fuel = outcome) : Settles run outcome :=
  Filter.Eventually.of_forall always

theorem unique (settles : Settles run outcome) (again : Settles run other) :
    outcome = other := by
  obtain ⟨fuel, isOutcome, isOther⟩ := (settles.and again).exists
  exact isOutcome.symm.trans isOther

/-- One unit of fuel more makes no difference. -/
theorem of_succ (settles : Settles (fun fuel => run (fuel + 1)) outcome) :
    Settles run outcome := by
  obtain ⟨bound, above⟩ := Filter.eventually_atTop.mp settles
  refine Filter.eventually_atTop.mpr ⟨bound + 1, fun fuel enough => ?_⟩
  obtain ⟨less, rfl⟩ : ∃ less, fuel = less + 1 := ⟨fuel - 1, by omega⟩
  exact above less (Nat.le_of_succ_le_succ enough)

/-- More fuel from the start makes no difference. -/
theorem add (settles : Settles run outcome) (more : ℕ) :
    Settles (fun fuel => run (fuel + more)) outcome :=
  (Filter.tendsto_add_atTop_nat more).eventually settles

theorem congr {run' : ℕ → α} (settles : Settles run outcome)
    (same : ∀ fuel, run' fuel = run fuel) : Settles run' outcome :=
  settles.mono fun fuel isOutcome => (same fuel).trans isOutcome

theorem map (settles : Settles run outcome) (f : α → β) :
    Settles (fun fuel => f (run fuel)) (f outcome) :=
  settles.mono fun _ isOutcome => congrArg f isOutcome

/-- A parse goes on where the first one has stopped. -/
theorem bind {run : ℕ → Option α} (next : ℕ → α → Option β) {value : α}
    {outcome : Option β} (settles : Settles run (some value))
    (goesOn : Settles (fun fuel => next fuel value) outcome) :
    Settles (fun fuel => (run fuel).bind (next fuel)) outcome := by
  refine (settles.and goesOn).mono fun fuel both => ?_
  dsimp only
  rw [both.1]
  exact both.2

theorem bind_none {run : ℕ → Option α} (next : ℕ → α → Option β)
    (settles : Settles run none) : Settles (fun fuel => (run fuel).bind (next fuel)) none := by
  refine settles.mono fun fuel isNone => ?_
  dsimp only
  rw [isNone]
  rfl

end Settles

/-! ## More fuel -/

/-- The second outcome is the first one, where there is one. -/
def Extends {α : Type*} (less more : Option α) : Prop :=
  ∀ value, less = some value → more = some value

namespace Extends

variable {α β : Type*}

theorem refl (outcome : Option α) : Extends outcome outcome := fun _ isSome => isSome

theorem none_left (outcome : Option α) : Extends none outcome := by
  rintro _ ⟨⟩

theorem bind {less more : Option α} {next next' : α → Option β} (extend : Extends less more)
    (goesOn : ∀ value, Extends (next value) (next' value)) :
    Extends (less.bind next) (more.bind next') := by
  intro value isSome
  obtain ⟨first, isFirst, isSecond⟩ := Option.bind_eq_some_iff.mp isSome
  rw [extend first isFirst]
  exact goesOn first value isSecond

theorem map {less more : Option α} (extend : Extends less more) (f : α → β) :
    Extends (less.map f) (more.map f) := by
  intro value isSome
  obtain ⟨first, isFirst, rfl⟩ := Option.map_eq_some_iff.mp isSome
  rw [extend first isFirst]
  rfl

/-- What one unit of fuel more never changes settles as soon as there is an
outcome. -/
theorem settles {run : ℕ → Option α} (extend : ∀ fuel, Extends (run fuel) (run (fuel + 1)))
    {fuel : ℕ} {value : α} (isSome : run fuel = some value) : Settles run (some value) := by
  refine Filter.eventually_atTop.mpr ⟨fuel, fun more isLe => ?_⟩
  induction more, isLe using Nat.le_induction with
  | base => exact isSome
  | succ more _ ih => exact extend more value ih

end Extends

/-! ## Failures -/

section Fails

variable {σ ι : Type*}

/-- The parse gives nothing, or stops at an input at which it is stuck. -/
def Fails (Stuck : ι → Prop) (run : ℕ → Option (σ × ι)) : Prop :=
  ∃ outcome, Settles run outcome ∧ ∀ state input, outcome = some (state, input) → Stuck input

namespace Fails

variable {Stuck : ι → Prop} {run run' : ℕ → Option (σ × ι)}

theorem of_none (settles : Settles run none) : Fails Stuck run :=
  ⟨none, settles, by rintro _ _ ⟨⟩⟩

theorem of_stuck {state : σ} {input : ι} (settles : Settles run (some (state, input)))
    (stuck : Stuck input) : Fails Stuck run := by
  refine ⟨_, settles, fun _ _ isSome => ?_⟩
  cases isSome
  exact stuck

theorem of_succ (fails : Fails Stuck fun fuel => run (fuel + 1)) : Fails Stuck run := by
  obtain ⟨outcome, settles, stuck⟩ := fails
  exact ⟨outcome, settles.of_succ, stuck⟩

theorem congr (fails : Fails Stuck run) (same : ∀ fuel, run' fuel = run fuel) :
    Fails Stuck run' := by
  obtain ⟨outcome, settles, stuck⟩ := fails
  exact ⟨outcome, settles.congr same, stuck⟩

/-- What goes on from a failure fails, if it does so at every input at which the
parse is stuck. -/
theorem bind (next : ℕ → σ × ι → Option (σ × ι)) (fails : Fails Stuck run)
    (onStuck : ∀ state input, Stuck input → Fails Stuck fun fuel => next fuel (state, input)) :
    Fails Stuck fun fuel => (run fuel).bind (next fuel) := by
  obtain ⟨outcome, settles, stuck⟩ := fails
  cases outcome with
  | none => exact of_none (settles.bind_none next)
  | some pair =>
      obtain ⟨state, input⟩ := pair
      obtain ⟨after, settlesAfter, stuckAfter⟩ := onStuck state input (stuck state input rfl)
      exact ⟨after, settles.bind next settlesAfter, stuckAfter⟩

/-- A step that cannot take place at an input at which the parse is stuck gives
nothing. -/
theorem bind_none {β : Type*} (next : ℕ → σ × ι → Option β) (fails : Fails Stuck run)
    (onStuck : ∀ state input, Stuck input → Settles (fun fuel => next fuel (state, input)) none) :
    Settles (fun fuel => (run fuel).bind (next fuel)) none := by
  obtain ⟨outcome, settles, stuck⟩ := fails
  cases outcome with
  | none => exact settles.bind_none next
  | some pair =>
      obtain ⟨state, input⟩ := pair
      exact settles.bind next (onStuck state input (stuck state input rfl))

end Fails
end Fails

/-! ## Loops -/

/-- What the loop of a level does at an input: it stops, it gives up, or it reads
an operator, to be followed by an operand. -/
inductive Turn (σ ι : Type*)
  | stop (rest : ι)
  | fail
  | go (before after : σ → σ) (rest : ι)

/-- One turn of a loop. -/
def Turn.run {σ ι : Type*} (turn : Turn σ ι) (operand rest : σ → ι → Option (σ × ι))
    (state : σ) : Option (σ × ι) :=
  match turn with
  | .stop input => some (state, input)
  | .fail => none
  | .go before after input =>
      (operand (before state) input).bind fun pair => rest (after pair.1) pair.2

/-- A level of left-associative operators. -/
structure Loop (σ ι : Type*) where
  top : ℕ → σ → ι → Option (σ × ι)
  operand : ℕ → σ → ι → Option (σ × ι)
  rest : ℕ → σ → ι → Option (σ × ι)
  turn : ι → Turn σ ι
  top_succ : ∀ fuel state input, top (fuel + 1) state input =
    (operand fuel state input).bind fun pair => rest fuel pair.1 pair.2
  rest_succ : ∀ fuel state input, rest (fuel + 1) state input =
    (turn input).run (operand fuel) (rest fuel) state

namespace Loop

variable {σ ι : Type*} (loop : Loop σ ι) {state after : σ} {input left : ι}
  {outcome : Option (σ × ι)} {Stuck : ι → Prop}

/-- The level starts with an operand and goes on with the loop. -/
theorem top_settles
    (first : Settles (fun fuel => loop.operand fuel state input) (some (after, left)))
    (others : Settles (fun fuel => loop.rest fuel after left) outcome) :
    Settles (fun fuel => loop.top fuel state input) outcome :=
  ((first.bind (fun fuel pair => loop.rest fuel pair.1 pair.2) others).congr fun fuel =>
    loop.top_succ fuel state input).of_succ

theorem rest_stop (stops : loop.turn input = .stop left) :
    Settles (fun fuel => loop.rest fuel state input) (some (state, left)) := by
  refine (Settles.of_forall fun fuel => ?_).of_succ
  rw [loop.rest_succ, stops]
  rfl

theorem rest_go {before onto : σ → σ} {next : ι}
    (goes : loop.turn input = .go before onto next)
    (second : Settles (fun fuel => loop.operand fuel (before state) next) (some (after, left)))
    (others : Settles (fun fuel => loop.rest fuel (onto after) left) outcome) :
    Settles (fun fuel => loop.rest fuel state input) outcome := by
  refine ((second.bind (fun fuel pair => loop.rest fuel (onto pair.1) pair.2) others).congr
    fun fuel => ?_).of_succ
  rw [loop.rest_succ, goes]
  rfl

/-- A loop at an input at which it is stuck stops there. -/
theorem rest_stuck
    (stops : ∀ input, Stuck input → ∃ left, loop.turn input = .stop left ∧ Stuck left)
    (stuck : Stuck input) : Fails Stuck fun fuel => loop.rest fuel state input := by
  obtain ⟨left, isStop, stuckLeft⟩ := stops input stuck
  exact .of_stuck (loop.rest_stop isStop) stuckLeft

theorem top_fails
    (stops : ∀ input, Stuck input → ∃ left, loop.turn input = .stop left ∧ Stuck left)
    (first : Fails Stuck fun fuel => loop.operand fuel state input) :
    Fails Stuck fun fuel => loop.top fuel state input :=
  ((first.bind (fun fuel pair => loop.rest fuel pair.1 pair.2) fun _ _ stuck =>
    loop.rest_stuck stops stuck).congr fun fuel => loop.top_succ fuel state input).of_succ

theorem rest_fails
    (stops : ∀ input, Stuck input → ∃ left, loop.turn input = .stop left ∧ Stuck left)
    {before onto : σ → σ} {next : ι} (goes : loop.turn input = .go before onto next)
    (second : Fails Stuck fun fuel => loop.operand fuel (before state) next) :
    Fails Stuck fun fuel => loop.rest fuel state input := by
  refine ((second.bind (fun fuel pair => loop.rest fuel (onto pair.1) pair.2) fun _ _ stuck =>
    loop.rest_stuck stops stuck).congr fun fuel => ?_).of_succ
  rw [loop.rest_succ, goes]
  rfl

end Loop

end Descent
end MuonJs
