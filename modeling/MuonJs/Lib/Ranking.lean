import Mathlib

/-!
# Sorting by a comparison and ranks

A comparison function is a strict weak order on the elements of a list when it
is antisymmetric under swapping its arguments and both "less" and "equal" are
transitive there; nothing is asked of it elsewhere.  Then insertion sort leaves
the elements in order.  The rank of an element is the number of elements before
it, and in a list in order the element of rank `n` stands at position `n`.
-/

namespace MuonJs
namespace Ranking

variable {α : Type*}

/-- The comparison is a strict weak order on the elements. -/
structure StrictWeakOrderOn (order : α → α → Ordering) (elements : List α) : Prop where
  swap : ∀ left ∈ elements, ∀ right ∈ elements, order right left = (order left right).swap
  lt_trans : ∀ first ∈ elements, ∀ second ∈ elements, ∀ third ∈ elements,
    order first second = .lt → order second third = .lt → order first third = .lt
  eq_trans : ∀ first ∈ elements, ∀ second ∈ elements, ∀ third ∈ elements,
    order first second = .eq → order second third = .eq → order first third = .eq

namespace StrictWeakOrderOn

variable {order : α → α → Ordering} {elements : List α}

theorem total
    (weak : StrictWeakOrderOn order elements)
    {left right : α} (isLeft : left ∈ elements) (isRight : right ∈ elements) :
    order left right ≠ .gt ∨ order right left ≠ .gt := by
  rw [weak.swap left isLeft right isRight]
  cases order left right <;> decide

/-- Elements that are not after one another stay so along a chain. -/
theorem le_trans
    (weak : StrictWeakOrderOn order elements)
    {first second third : α} (isFirst : first ∈ elements) (isSecond : second ∈ elements)
    (isThird : third ∈ elements)
    (before : order first second ≠ .gt) (after : order second third ≠ .gt) :
    order first third ≠ .gt := by
  intro isAfter
  have swapped : order third first = .lt := by
    rw [weak.swap first isFirst third isThird, isAfter]
    rfl
  cases isBefore : order first second with
  | gt => exact before isBefore
  | lt =>
      have shorter := weak.lt_trans third isThird first isFirst second isSecond swapped isBefore
      rw [weak.swap second isSecond third isThird] at shorter
      exact after (Ordering.swap_eq_lt.mp shorter)
  | eq =>
      cases isNext : order second third with
      | gt => exact after isNext
      | lt =>
          have shorter := weak.lt_trans second isSecond third isThird first isFirst isNext swapped
          rw [weak.swap first isFirst second isSecond, isBefore] at shorter
          cases shorter
      | eq =>
          rw [weak.eq_trans first isFirst second isSecond third isThird isBefore isNext] at isAfter
          cases isAfter

/-- Insertion sort leaves the elements in order. -/
theorem pairwise_insertionSort (weak : StrictWeakOrderOn order elements) :
    (elements.insertionSort fun left right => order left right ≠ .gt).Pairwise
      fun left right => order left right ≠ .gt := by
  let within : {x // x ∈ elements} → {x // x ∈ elements} → Prop :=
    fun left right => order left.val right.val ≠ .gt
  have isTotal : Std.Total within :=
    ⟨fun left right => weak.total left.property right.property⟩
  have isTrans : IsTrans _ within :=
    ⟨fun first second third => weak.le_trans first.property second.property third.property⟩
  have isMap := List.map_insertionSort within
    (fun left right => order left right ≠ .gt) Subtype.val elements.attach
    fun _ _ _ _ => Iff.rfl
  rw [List.attach_map_subtype_val] at isMap
  rw [← isMap, List.pairwise_map]
  exact List.pairwise_insertionSort within elements.attach

end StrictWeakOrderOn

/-! ## Ranks -/

/-- The number of elements before one. -/
def rank (before : α → α → Prop) [DecidableRel before] (elements : List α) (element : α) : ℕ :=
  elements.countP fun other => before other element

variable {before : α → α → Prop} [DecidableRel before]

theorem rank_perm {left right : List α} (perm : left.Perm right) (element : α) :
    rank before left element = rank before right element :=
  perm.countP_eq _

/-- In a list in order, an element's rank is its position. -/
theorem rank_getElem
    {elements : List α} (inOrder : elements.Pairwise before)
    (asymmetric : ∀ left ∈ elements, ∀ right ∈ elements, before left right → ¬before right left)
    {position : ℕ} (bound : position < elements.length) :
    rank before elements elements[position] = position := by
  have earlier : (elements.take position).countP (fun other => before other elements[position]) =
      position := by
    rw [List.countP_eq_length.mpr, List.length_take_of_le bound.le]
    intro other isEarlier
    obtain ⟨index, small, isOther⟩ := List.mem_iff_getElem.mp isEarlier
    rw [List.length_take_of_le bound.le] at small
    rw [List.getElem_take] at isOther
    rw [decide_eq_true_iff, ← isOther]
    exact List.pairwise_iff_getElem.mp inOrder index position _ bound small
  have later : (elements.drop position).countP (fun other => before other elements[position]) =
      0 := by
    rw [List.countP_eq_zero]
    intro other isLater
    obtain ⟨index, small, isOther⟩ := List.mem_iff_getElem.mp isLater
    rw [List.length_drop] at small
    rw [List.getElem_drop] at isOther
    rw [decide_eq_true_iff, ← isOther]
    have isPosition := List.getElem_mem bound
    cases index with
    | zero => exact fun selfBefore => asymmetric _ isPosition _ isPosition selfBefore selfBefore
    | succ index =>
        refine asymmetric _ isPosition _ (List.getElem_mem _) ?_
        exact List.pairwise_iff_getElem.mp inOrder position (position + (index + 1)) bound
          (by omega) (by omega)
  have split := @List.countP_append _ (fun other => decide (before other elements[position]))
    (elements.take position) (elements.drop position)
  rw [List.take_append_drop, earlier, later, Nat.add_zero] at split
  exact split

theorem rank_lt_length
    {elements : List α} (inOrder : elements.Pairwise before)
    (asymmetric : ∀ left ∈ elements, ∀ right ∈ elements, before left right → ¬before right left)
    {element : α} (listed : element ∈ elements) :
    rank before elements element < elements.length := by
  obtain ⟨position, bound, rfl⟩ := List.mem_iff_getElem.mp listed
  rw [rank_getElem inOrder asymmetric]
  exact bound

/-- The elements from one position on, up to before another, are those with the
ranks in between. -/
theorem mem_slice_iff
    {elements : List α} (inOrder : elements.Pairwise before)
    (asymmetric : ∀ left ∈ elements, ∀ right ∈ elements, before left right → ¬before right left)
    (first past : ℕ) (element : α) :
    element ∈ (elements.take past).drop first ↔
      element ∈ elements ∧ first ≤ rank before elements element ∧
        rank before elements element < past := by
  constructor
  · intro selected
    obtain ⟨index, small, isElement⟩ := List.mem_iff_getElem.mp selected
    rw [List.length_drop, List.length_take] at small
    rw [List.getElem_drop, List.getElem_take] at isElement
    rw [← isElement, rank_getElem inOrder asymmetric]
    exact ⟨List.getElem_mem _, by omega, by omega⟩
  · rintro ⟨listed, above, below⟩
    obtain ⟨position, bound, rfl⟩ := List.mem_iff_getElem.mp listed
    rw [rank_getElem inOrder asymmetric] at above below
    rw [List.mem_iff_getElem]
    refine ⟨position - first, ?_, ?_⟩
    · rw [List.length_drop, List.length_take]
      omega
    · rw [List.getElem_drop, List.getElem_take]
      congr 1
      omega

end Ranking
end MuonJs
