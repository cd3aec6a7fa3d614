import Mathlib.Data.List.Basic

/-!
# Occurrences of a pattern in a list

The first place of a pattern, and the places that are found from left to right when
each search goes on behind the place before it.
-/

namespace MuonJs
namespace Occurrences

variable {α : Type*}

/-- A pattern stands at a position. -/
def IsAt (pattern text : List α) (position : ℕ) : Prop :=
  position ≤ text.length ∧ pattern <+: text.drop position

/-- Each place is the first one that is not before the end of the place before it, and
none is left out at the end. -/
inductive Greedy (pattern text : List α) : ℕ → List ℕ → Prop
  | done {least : ℕ} (noMore : ∀ position, least ≤ position → ¬IsAt pattern text position) :
      Greedy pattern text least []
  | next {least position : ℕ} {positions : List ℕ} (bound : least ≤ position)
      (isAt : IsAt pattern text position)
      (first : ∀ other, least ≤ other → other < position → ¬IsAt pattern text other)
      (later : Greedy pattern text (position + max 1 pattern.length) positions) :
      Greedy pattern text least (position :: positions)

theorem IsAt.drop_iff {pattern text : List α} {least position : ℕ} :
    IsAt pattern (text.drop least) position ∧ least ≤ text.length ↔
      IsAt pattern text (least + position) := by
  rw [IsAt, IsAt, List.length_drop, List.drop_drop]
  constructor
  · rintro ⟨⟨bound, isPrefix⟩, inside⟩
    exact ⟨by omega, isPrefix⟩
  · rintro ⟨bound, isPrefix⟩
    exact ⟨⟨by omega, isPrefix⟩, by omega⟩

theorem Greedy.isAt_of_mem {pattern text : List α} {least : ℕ} {positions : List ℕ}
    (isGreedy : Greedy pattern text least positions) {position : ℕ}
    (isMember : position ∈ positions) : IsAt pattern text position := by
  induction isGreedy with
  | done _ => exact absurd isMember List.not_mem_nil
  | next _ isAt _ _ hypothesis =>
      obtain rfl | isLater := List.mem_cons.mp isMember
      · exact isAt
      · exact hypothesis isLater

variable [DecidableEq α]

/-- The first place of a pattern. -/
def find (pattern : List α) : List α → Option ℕ
  | [] => if pattern = [] then some 0 else none
  | item :: rest =>
      if pattern.isPrefixOf (item :: rest) then some 0 else (find pattern rest).map (· + 1)

/-- The places from a position on, when so many items are passed over first. -/
def occurrencesFrom (pattern : List α) : ℕ → ℕ → List α → List ℕ
  | position, 0, [] => if pattern = [] then [position] else []
  | _, _ + 1, [] => []
  | position, 0, item :: rest =>
      if pattern.isPrefixOf (item :: rest) then
        position :: occurrencesFrom pattern (position + 1) (pattern.length - 1) rest
      else occurrencesFrom pattern (position + 1) 0 rest
  | position, skip + 1, _ :: rest => occurrencesFrom pattern (position + 1) skip rest

/-- The places of a pattern that do not overlap, from left to right. -/
def occurrences (pattern text : List α) : List ℕ := occurrencesFrom pattern 0 0 text

/-! ## The first place -/

theorem find_isAt {pattern text : List α} {position : ℕ} (found : find pattern text = some position) :
    IsAt pattern text position ∧ ∀ other < position, ¬IsAt pattern text other := by
  induction text generalizing position with
  | nil =>
      rw [find] at found
      split at found
      · rename_i isNil
        cases found
        exact ⟨⟨Nat.le_refl 0, by rw [isNil]; exact List.nil_prefix⟩,
          fun _ less => absurd less (Nat.not_lt_zero _)⟩
      · cases found
  | cons item rest hypothesis =>
      rw [find] at found
      split at found
      · rename_i isHere
        cases found
        exact ⟨⟨Nat.zero_le _, List.isPrefixOf_iff_prefix.mp isHere⟩,
          fun _ less => absurd less (Nat.not_lt_zero _)⟩
      · rename_i notHere
        rw [List.isPrefixOf_iff_prefix] at notHere
        obtain ⟨before, foundBefore, rfl⟩ := Option.map_eq_some_iff.mp found
        obtain ⟨⟨bound, isAt⟩, first⟩ := hypothesis foundBefore
        refine ⟨⟨Nat.succ_le_succ bound, isAt⟩, ?_⟩
        intro other less isOther
        cases other with
        | zero => exact notHere isOther.2
        | succ other =>
            exact first other (Nat.lt_of_succ_lt_succ less)
              ⟨Nat.le_of_succ_le_succ isOther.1, isOther.2⟩

theorem not_isAt_of_find {pattern text : List α} (absent : find pattern text = none) (position : ℕ) :
    ¬IsAt pattern text position := by
  induction text generalizing position with
  | nil =>
      rw [find] at absent
      split at absent
      · cases absent
      · rename_i notNil
        rintro ⟨-, isPrefix⟩
        rw [List.drop_nil, List.prefix_nil] at isPrefix
        exact notNil isPrefix
  | cons item rest hypothesis =>
      rw [find] at absent
      split at absent
      · cases absent
      · rename_i notHere
        rw [List.isPrefixOf_iff_prefix] at notHere
        rw [Option.map_eq_none_iff] at absent
        rintro ⟨bound, isPrefix⟩
        cases position with
        | zero => exact notHere isPrefix
        | succ position =>
            exact hypothesis absent position ⟨Nat.le_of_succ_le_succ bound, isPrefix⟩

/-! ## All places -/

theorem occurrencesFrom_skip (pattern : List α) (position skip : ℕ) {text : List α}
    (fits : skip ≤ text.length) :
    occurrencesFrom pattern position skip text =
      occurrencesFrom pattern (position + skip) 0 (text.drop skip) := by
  induction skip generalizing position text with
  | zero => rfl
  | succ skip hypothesis =>
      cases text with
      | nil => exact absurd fits (Nat.not_succ_le_zero skip)
      | cons item rest =>
          rw [occurrencesFrom, hypothesis (position + 1) (Nat.le_of_succ_le_succ fits),
            List.drop_succ_cons, Nat.add_right_comm, Nat.add_assoc]

theorem occurrencesFrom_of_find_none {pattern text : List α} (absent : find pattern text = none)
    (position : ℕ) : occurrencesFrom pattern position 0 text = [] := by
  induction text generalizing position with
  | nil =>
      rw [find] at absent
      split at absent
      · cases absent
      · rename_i notNil
        rw [occurrencesFrom, if_neg notNil]
  | cons item rest hypothesis =>
      rw [find] at absent
      split at absent
      · cases absent
      · rename_i notHere
        rw [Option.map_eq_none_iff] at absent
        rw [occurrencesFrom, if_neg notHere]
        exact hypothesis absent _

/-- The search goes on behind the first place. -/
theorem occurrencesFrom_of_find {pattern text : List α} (notNil : pattern ≠ []) {place : ℕ}
    (found : find pattern text = some place) (position : ℕ) :
    occurrencesFrom pattern position 0 text =
      (position + place) ::
        occurrencesFrom pattern (position + (place + pattern.length)) 0
          (text.drop (place + pattern.length)) := by
  induction text generalizing position place with
  | nil =>
      rw [find, if_neg notNil] at found
      cases found
  | cons item rest hypothesis =>
      rw [find] at found
      split at found
      · rename_i isHere
        cases found
        have fits := (List.isPrefixOf_iff_prefix.mp isHere).length_le
        have positive := List.length_pos_iff.mpr notNil
        rw [occurrencesFrom, if_pos isHere, occurrencesFrom_skip _ _ _ (by
          rw [List.length_cons] at fits
          omega)]
        obtain ⟨length, isLength⟩ := Nat.exists_eq_succ_of_ne_zero (Nat.pos_iff_ne_zero.mp positive)
        rw [isLength, Nat.zero_add, Nat.add_zero, Nat.succ_sub_one, List.drop_succ_cons]
        congr 2
        omega
      · rename_i notHere
        obtain ⟨before, foundBefore, rfl⟩ := Option.map_eq_some_iff.mp found
        rw [occurrencesFrom, if_neg notHere, hypothesis foundBefore (position + 1),
          show before + 1 + pattern.length = (before + pattern.length) + 1 from by omega,
          List.drop_succ_cons]
        rw [show position + 1 + before = position + (before + 1) by omega,
          show position + 1 + (before + pattern.length) =
            position + (before + pattern.length + 1) by omega]

/-- The places of the empty pattern. -/
theorem occurrencesFrom_nil (position : ℕ) (text : List α) :
    occurrencesFrom [] position 0 text = List.range' position (text.length + 1) := by
  induction text generalizing position with
  | nil => rfl
  | cons item rest hypothesis =>
      have isHere : ([] : List α).isPrefixOf (item :: rest) = true := rfl
      rw [occurrencesFrom, if_pos isHere, List.length_nil, Nat.zero_sub, hypothesis (position + 1),
        List.length_cons]
      rfl

theorem greedy_occurrencesFrom {pattern : List α} (text : List α) (least : ℕ)
    (inside : least ≤ text.length) :
    Greedy pattern text least (occurrencesFrom pattern least 0 (text.drop least)) := by
  induction measure : text.length - least using Nat.strongRecOn generalizing least with
  | _ size hypothesis =>
      by_cases isNil : pattern = []
      · subst isNil
        have here : IsAt [] text least := ⟨inside, List.nil_prefix⟩
        have first (other : ℕ) (bound : least ≤ other) (less : other < least) :
            ¬IsAt [] text other := absurd less (Nat.not_lt_of_le bound)
        cases rest : text.drop least with
        | nil =>
            rw [occurrencesFrom, if_pos rfl]
            have atEnd := List.drop_eq_nil_iff.mp rest
            refine .next (Nat.le_refl _) here first (.done ?_)
            rintro position bound ⟨within, -⟩
            simp at bound
            omega
        | cons item tail =>
            have more : least + 1 ≤ text.length := by
              have := congrArg List.length rest
              rw [List.length_drop, List.length_cons] at this
              omega
            have isTail : text.drop (least + 1) = tail := by
              rw [← List.drop_drop, rest, List.drop_one, List.tail_cons]
            have isHere : ([] : List α).isPrefixOf (item :: tail) = true := rfl
            rw [occurrencesFrom, if_pos isHere]
            refine .next (Nat.le_refl _) here first ?_
            have later := hypothesis (text.length - (least + 1)) (by omega) (least + 1) more rfl
            rwa [isTail] at later
      cases found : find pattern (text.drop least) with
      | none =>
          rw [occurrencesFrom_of_find_none found]
          refine .done fun position bound isAt => ?_
          obtain ⟨offset, rfl⟩ := Nat.exists_eq_add_of_le bound
          exact not_isAt_of_find found offset (IsAt.drop_iff.mpr isAt).1
      | some place =>
          have positive := List.length_pos_iff.mpr isNil
          obtain ⟨isAt, first⟩ := find_isAt found
          have whole := IsAt.drop_iff.mp ⟨isAt, inside⟩
          have fits : least + place + pattern.length ≤ text.length := by
            have := whole.2.length_le
            rw [List.length_drop] at this
            have := whole.1
            omega
          rw [occurrencesFrom_of_find isNil found]
          refine .next (Nat.le_add_right _ _) whole ?_ ?_
          · intro other bound less isOther
            obtain ⟨offset, rfl⟩ := Nat.exists_eq_add_of_le bound
            exact first offset (by omega) (IsAt.drop_iff.mpr isOther).1
          · rw [Nat.max_eq_right positive, List.drop_drop,
              show least + (place + pattern.length) = least + place + pattern.length by omega]
            exact hypothesis _ (by omega) _ fits rfl

/-- The places that are found are the greedy ones. -/
theorem greedy_occurrences (pattern text : List α) :
    Greedy pattern text 0 (occurrences pattern text) :=
  greedy_occurrencesFrom text 0 (Nat.zero_le _)

end Occurrences
end MuonJs
