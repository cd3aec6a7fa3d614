import Mathlib

/-!
# Bisection

The binary search for the end of a run of positions: an interval is halved at a probe of
its middle.  Where the probe tells the positions before a bound from the others, the
search ends at the bound.
-/

namespace MuonJs
namespace Bisection

/-- Halve an interval until it is empty: go on behind a position that the probe holds of,
and before one that it fails of.  There is no result where a probe has none. -/
def bisect (probe : ℕ → Option Bool) (lo hi : ℕ) : Option ℕ :=
  if lo < hi then
    match probe ((lo + hi) / 2) with
    | none => none
    | some true => bisect probe ((lo + hi) / 2 + 1) hi
    | some false => bisect probe lo ((lo + hi) / 2)
  else some lo
termination_by hi - lo

/-- The bound stays within the interval, which is all that is left of it at the end. -/
theorem bisect_eq_some {probe : ℕ → Option Bool} {lo hi bound : ℕ}
    (low : lo ≤ bound) (high : bound ≤ hi)
    (answers : ∀ position < hi, probe position = some (decide (position < bound))) :
    bisect probe lo hi = some bound := by
  induction lo, hi using bisect.induct probe with
  | case1 lo hi isOpen isNone =>
      rw [answers _ (by omega)] at isNone
      cases isNone
  | case2 lo hi isOpen isTrue ih =>
      have isBefore : (lo + hi) / 2 < bound := by
        rw [answers _ (by omega), Option.some.injEq, decide_eq_true_eq] at isTrue
        exact isTrue
      rw [bisect, if_pos isOpen, isTrue]
      exact ih isBefore high answers
  | case3 lo hi isOpen isFalse ih =>
      have isBehind : bound ≤ (lo + hi) / 2 := by
        rw [answers _ (by omega), Option.some.injEq, decide_eq_false_iff_not] at isFalse
        exact Nat.le_of_not_lt isFalse
      rw [bisect, if_pos isOpen, isFalse]
      exact ih low isBehind fun position isLess => answers position (by omega)
  | case4 lo hi isEmpty =>
      rw [bisect, if_neg isEmpty, Option.some.injEq]
      omega

/-- The search in a list that splits at a bound ends at the split. -/
theorem bisect_append {α : Type*} {test : α → Bool} {front back : List α}
    (holds : ∀ item ∈ front, test item = true) (fails : ∀ item ∈ back, test item = false) :
    bisect (fun position => (front ++ back)[position]?.map test) 0 (front ++ back).length =
      some front.length := by
  apply bisect_eq_some (Nat.zero_le _)
  · rw [List.length_append]
    exact Nat.le_add_right _ _
  · intro position inRange
    rw [List.length_append] at inRange
    by_cases isFront : position < front.length
    · have inFront : front[position] ∈ front := List.getElem_mem isFront
      rw [List.getElem?_append_left isFront, List.getElem?_eq_getElem isFront, Option.map_some,
        holds _ inFront, decide_eq_true isFront]
    · have isBack : position - front.length < back.length := by omega
      have inBack : back[position - front.length] ∈ back := List.getElem_mem isBack
      rw [List.getElem?_append_right (Nat.le_of_not_lt isFront),
        List.getElem?_eq_getElem isBack, Option.map_some, fails _ inBack,
        decide_eq_false isFront]

end Bisection
end MuonJs
