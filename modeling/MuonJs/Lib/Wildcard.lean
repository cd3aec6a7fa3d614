import Mathlib

/-!
# Wildcard patterns

A pattern is read from its start: it is done, it starts with a star, or it
starts with a test for one element of the text.  What it matches is defined by
recursion on this reading.  A matcher that goes back to its last star only
loses nothing, because between two stars every test takes one element
(`Singles.overtake`).
-/

namespace MuonJs
namespace Wildcard

/-- How a pattern starts. -/
inductive Head (α P : Type) where
  | done
  | star (rest : P)
  | one (accepts : α → Bool) (rest : P)

variable {α P : Type} {head : P → Head α P}

/-- The texts a pattern matches. -/
inductive Matches (head : P → Head α P) : P → List α → Prop
  | done {pattern : P} (reads : head pattern = .done) : Matches head pattern []
  | star {pattern rest : P} (reads : head pattern = .star rest)
      (skipped : List α) {text : List α} (matched : Matches head rest text) :
      Matches head pattern (skipped ++ text)
  | one {pattern rest : P} {accepts : α → Bool} (reads : head pattern = .one accepts rest)
      {item : α} (accepted : accepts item = true) {text : List α}
      (matched : Matches head rest text) :
      Matches head pattern (item :: text)

theorem matches_done_iff
    {pattern : P} (reads : head pattern = .done) (text : List α) :
    Matches head pattern text ↔ text = [] := by
  constructor
  · intro matched
    cases matched with
    | done => rfl
    | star other => rw [reads] at other; cases other
    | one other => rw [reads] at other; cases other
  · rintro rfl
    exact .done reads

theorem matches_star_iff
    {pattern rest : P} (reads : head pattern = .star rest) (text : List α) :
    Matches head pattern text ↔
      ∃ skip ≤ text.length, Matches head rest (text.drop skip) := by
  constructor
  · intro matched
    cases matched with
    | done other => rw [reads] at other; cases other
    | one other => rw [reads] at other; cases other
    | star other skipped matched =>
        rw [reads] at other
        cases other
        refine ⟨skipped.length, ?_, ?_⟩
        · rw [List.length_append]
          omega
        · rw [List.drop_left]
          exact matched
  · rintro ⟨skip, -, matched⟩
    rw [← List.take_append_drop skip text]
    exact .star reads _ matched

theorem matches_one_iff
    {pattern rest : P} {accepts : α → Bool} (reads : head pattern = .one accepts rest)
    (text : List α) :
    Matches head pattern text ↔
      ∃ item later, text = item :: later ∧ accepts item = true ∧
        Matches head rest later := by
  constructor
  · intro matched
    cases matched with
    | done other => rw [reads] at other; cases other
    | star other => rw [reads] at other; cases other
    | one other accepted matched =>
        rw [reads] at other
        cases other
        exact ⟨_, _, rfl, accepted, matched⟩
  · rintro ⟨item, later, rfl, accepted, matched⟩
    exact .one reads accepted matched

/-- The second pattern is the first one after so many tests. -/
inductive Singles (head : P → Head α P) (pattern : P) : Nat → P → Prop
  | start : Singles head pattern 0 pattern
  | next {count : Nat} {reached rest : P} {accepts : α → Bool}
      (passed : Singles head pattern count reached)
      (reads : head reached = .one accepts rest) :
      Singles head pattern (count + 1) rest

/-- What the tests take has their number of elements. -/
theorem Singles.matched_rest
    {pattern reached : P} {count : Nat} (passed : Singles head pattern count reached)
    {text : List α} (matched : Matches head pattern text) :
    count ≤ text.length ∧ Matches head reached (text.drop count) := by
  induction passed with
  | start => exact ⟨Nat.zero_le _, matched⟩
  | next passed reads ih =>
      obtain ⟨enough, atTest⟩ := ih
      obtain ⟨item, later, isLater, -, restMatched⟩ := (matches_one_iff reads _).mp atTest
      have longer := congrArg List.length isLater
      rw [List.length_drop, List.length_cons] at longer
      refine ⟨by omega, ?_⟩
      rw [← List.drop_drop, isLater]
      exact restMatched

/-- A match further on in the text gives one that starts at the next star: the
star skips what lies between. -/
theorem Singles.overtake
    {pattern reached rest : P} {count : Nat} (passed : Singles head pattern count reached)
    (reads : head reached = .star rest)
    {text : List α} {start later : Nat} (ahead : start ≤ later)
    (matched : Matches head pattern (text.drop later)) :
    Matches head reached (text.drop (start + count)) := by
  obtain ⟨-, atStar⟩ := passed.matched_rest matched
  obtain ⟨skip, -, restMatched⟩ := (matches_star_iff reads _).mp atStar
  have split := List.take_append_drop (later + count + skip - (start + count))
    (text.drop (start + count))
  have landed : start + count + (later + count + skip - (start + count)) =
      later + count + skip := by omega
  rw [List.drop_drop, landed] at split
  rw [List.drop_drop, List.drop_drop, ← Nat.add_assoc] at restMatched
  rw [← split]
  exact .star reads _ restMatched

/-- No match further on is left when the text ends before a test. -/
theorem Singles.exhausted
    {pattern reached rest : P} {accepts : α → Bool} {count : Nat}
    (passed : Singles head pattern count reached) (reads : head reached = .one accepts rest)
    {text : List α} {start later : Nat} (ahead : start ≤ later)
    (ended : text.length ≤ start + count) :
    ¬Matches head pattern (text.drop later) := by
  intro matched
  have enough := ((passed.next reads).matched_rest matched).1
  rw [List.length_drop] at enough
  omega

end Wildcard
end MuonJs
