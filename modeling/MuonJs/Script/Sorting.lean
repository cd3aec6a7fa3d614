import MuonJs.Lib.BubbleSort
import MuonJs.Script.DoubleOrder
import MuonJs.Script.StringToNumber

/-!
# Sorting arrays

`__builtin_array_sort__` swaps neighbours in place.  A value that is undefined goes behind
every other one; other values are compared by the number that the comparator answers, or
without a comparator by the difference of their numbers.

Comparators and conversions have no side effects here: they answer the same whenever they
are asked, and leave the array alone.
-/

namespace MuonJs
namespace Script

open Cache (F64 Bytes)

/-! ## The loops -/

/-- `array_get`. -/
def arrayGet (elements : List JSValue) (idx : ℕ) : JSValue :=
  if elements.length ≤ idx then .undefined else elements.getD idx .undefined

/-- `array_set`, with memory to grow. -/
def arraySet (elements : List JSValue) (idx : ℕ) (value : JSValue) : List JSValue :=
  if elements.length ≤ idx then
    elements ++ List.replicate (idx - elements.length) .undefined ++ [value]
  else elements.set idx value

/-- The number of an element that is sorted without a comparator. -/
def elementNumber (conversions : Conversions) (ctx : Context) (element : JSValue) : F64 :=
  match element with
  | .int n => i32AsF64 n
  | _ => ((Context.jsToNumber conversions ctx element).1).getD F64.zero

/-- The number of the answer of a comparator; none when the call or the conversion fails. -/
abbrev Comparator := JSValue → JSValue → Option F64

/-- `cmp` of two elements. -/
def sortCompare (conversions : Conversions) (ctx : Context) (comparator : Option Comparator)
    (a b : JSValue) : F64 :=
  match comparator with
  | some call => (call a b).getD F64.zero
  | none => (elementNumber conversions ctx a).sub (elementNumber conversions ctx b)

/-- The body of the inner loop. -/
def sortStep (cmp : JSValue → JSValue → F64) (elements : List JSValue) (j : ℕ) : List JSValue :=
  let a := arrayGet elements j
  let b := arrayGet elements (j + 1)
  if a = .undefined then
    if b ≠ .undefined then arraySet (arraySet elements j b) (j + 1) a else elements
  else if b = .undefined then elements
  else if (cmp a b).partialCmp F64.zero = some .gt then
    arraySet (arraySet elements j b) (j + 1) a
  else elements

/-- `__builtin_array_sort__`, on the elements of the array. -/
def arraySort (conversions : Conversions) (ctx : Context) (comparator : Option Comparator)
    (elements : List JSValue) : List JSValue :=
  let len := elements.length
  (List.range len).foldl (fun elements i =>
    (List.range (len - i - 1)).foldl (sortStep (sortCompare conversions ctx comparator)) elements)
    elements

/-- The indices that the loops read and write. -/
def sortIndices (len : ℕ) : List ℕ :=
  (List.range len).flatMap fun i => (List.range (len - i - 1)).flatMap fun j => [j, j + 1]

/-! ## The relation behind a swap -/

/-- Two values that the body of the inner loop swaps. -/
def SwapsBefore (cmp : JSValue → JSValue → F64) (a b : JSValue) : Prop :=
  b ≠ .undefined ∧ (a = .undefined ∨ (cmp a b).partialCmp F64.zero = some .gt)

instance (cmp : JSValue → JSValue → F64) : DecidableRel (SwapsBefore cmp) := fun _ _ =>
  inferInstanceAs (Decidable (_ ∧ _))

theorem arrayGet_append (front : List JSValue) (a : JSValue) (rest : List JSValue) :
    arrayGet (front ++ a :: rest) front.length = a := by
  rw [arrayGet, if_neg (by simp), List.getD_eq_getElem?_getD, List.getElem?_append_right (Nat.le_refl _),
    Nat.sub_self]
  rfl

theorem arraySet_append (front : List JSValue) (a : JSValue) (rest : List JSValue)
    (value : JSValue) :
    arraySet (front ++ a :: rest) front.length value = front ++ value :: rest := by
  rw [arraySet, if_neg (by simp), List.set_append_right _ _ (Nat.le_refl _), Nat.sub_self]
  rfl

theorem sortStep_append (cmp : JSValue → JSValue → F64) (front : List JSValue) (a b : JSValue)
    (rest : List JSValue) :
    sortStep cmp (front ++ a :: b :: rest) front.length =
      if SwapsBefore cmp a b then front ++ b :: a :: rest else front ++ a :: b :: rest := by
  have swapped : arraySet (arraySet (front ++ a :: b :: rest) front.length b) (front.length + 1) a =
      front ++ b :: a :: rest := by
    rw [arraySet_append]
    have second := arraySet_append (front ++ [b]) b rest a
    rwa [List.length_append, List.length_singleton, List.append_assoc, List.append_assoc] at second
  have isB : arrayGet (front ++ a :: b :: rest) (front.length + 1) = b := by
    have second := arrayGet_append (front ++ [a]) b rest
    rwa [List.length_append, List.length_singleton, List.append_assoc] at second
  rw [sortStep, arrayGet_append, isB, swapped]
  by_cases undefinedA : a = .undefined
  · rw [if_pos undefinedA]
    exact if_congr (and_iff_left (.inl undefinedA)).symm rfl rfl
  · rw [if_neg undefinedA]
    by_cases undefinedB : b = .undefined
    · rw [if_pos undefinedB, if_neg (fun swaps : SwapsBefore cmp a b => swaps.1 undefinedB)]
    · rw [if_neg undefinedB]
      refine if_congr ⟨fun isGreater => ⟨undefinedB, .inr isGreater⟩, fun swaps => ?_⟩ rfl rfl
      exact swaps.2.resolve_left undefinedA

/-- The inner loop is a pass of bubble sort. -/
theorem foldl_sortStep (cmp : JSValue → JSValue → F64) (count : ℕ) (front items : List JSValue)
    (short : count < items.length) :
    (List.range' front.length count).foldl (sortStep cmp) (front ++ items) =
      front ++ BubbleSort.pass (SwapsBefore cmp) count items := by
  induction count generalizing front items with
  | zero => rfl
  | succ count hypothesis =>
      cases items with
      | nil => exact absurd short (Nat.not_lt_zero _)
      | cons a tail =>
          cases tail with
          | nil => exact absurd (Nat.lt_of_succ_lt_succ short) (Nat.not_lt_zero _)
          | cons b rest =>
              have less : count < (a :: rest).length := Nat.lt_of_succ_lt_succ short
              rw [List.range'_succ, List.foldl_cons, sortStep_append, BubbleSort.pass]
              split
              · have later := hypothesis (front ++ [b]) (a :: rest) less
                rwa [List.length_append, List.length_singleton, List.append_assoc,
                  List.append_assoc] at later
              · have later := hypothesis (front ++ [a]) (b :: rest) less
                rwa [List.length_append, List.length_singleton, List.append_assoc,
                  List.append_assoc] at later

theorem foldl_sortStep_range (cmp : JSValue → JSValue → F64) (count : ℕ) (items : List JSValue)
    (short : count < items.length) :
    (List.range count).foldl (sortStep cmp) items =
      BubbleSort.pass (SwapsBefore cmp) count items := by
  have inner := foldl_sortStep cmp count [] items short
  rwa [List.nil_append, List.nil_append, List.length_nil, ← List.range_eq_range'] at inner

/-- The outer loop from a turn on. -/
theorem foldl_passes (cmp : JSValue → JSValue → F64) (len count first : ℕ)
    (isCount : first + count = len) (items : List JSValue) (isLength : items.length = len) :
    (List.range' first count).foldl (fun elements i =>
        (List.range (len - i - 1)).foldl (sortStep cmp) elements) items =
      BubbleSort.passes (SwapsBefore cmp) (count - 1) items := by
  induction count generalizing first items with
  | zero => rfl
  | succ count hypothesis =>
      have turns : len - first - 1 = count := by omega
      rw [List.range'_succ, List.foldl_cons, turns, foldl_sortStep_range _ _ _ (by omega),
        hypothesis (first + 1) (by omega) _
          ((BubbleSort.pass_perm _ _).length_eq.trans isLength)]
      cases count with
      | zero => rfl
      | succ count => rfl

/-- The loops are bubble sort. -/
theorem arraySort_eq (conversions : Conversions) (ctx : Context) (comparator : Option Comparator)
    (elements : List JSValue) :
    arraySort conversions ctx comparator elements =
      BubbleSort.sort (SwapsBefore (sortCompare conversions ctx comparator)) elements := by
  have outer := foldl_passes (sortCompare conversions ctx comparator) elements.length
    elements.length 0 (Nat.zero_add _) elements rfl
  rwa [← List.range_eq_range'] at outer

/-! ## What is sorted -/

/-- The comparison answers a positive number. -/
def Greater (cmp : JSValue → JSValue → F64) (a b : JSValue) : Prop :=
  (cmp a b).partialCmp F64.zero = some .gt

/-- The number of one element is greater than that of another. -/
def NumberGreater (number : JSValue → F64) (a b : JSValue) : Prop :=
  (number a).partialCmp (number b) = some .gt

instance (cmp : JSValue → JSValue → F64) : DecidableRel (Greater cmp) := fun _ _ =>
  inferInstanceAs (Decidable (_ = _))

instance (number : JSValue → F64) : DecidableRel (NumberGreater number) := fun _ _ =>
  inferInstanceAs (Decidable (_ = _))

instance {α : Type} (greater : α → α → Prop) [DecidableRel greater] :
    DecidableRel (BubbleSort.Alike greater) := fun _ _ => inferInstanceAs (Decidable (_ ∧ _))

/-- The elements that are not undefined. -/
def defined (elements : List JSValue) : List JSValue := elements.filter (· ≠ .undefined)

/-- All elements that are undefined are at the end. -/
def UndefinedLast (elements : List JSValue) : Prop :=
  elements.Pairwise fun a b => a = .undefined → b = .undefined

/-- The defined elements are in an order in which none is greater than a later one, and
those that are alike are in their old order. -/
structure SortedStably (greater : JSValue → JSValue → Prop) [DecidableRel greater]
    (elements out : List JSValue) : Prop where
  sorted : (defined out).Pairwise fun a b => ¬greater a b
  stable : ∀ item ∈ defined elements,
    (defined out).filter (BubbleSort.Alike greater item) =
      (defined elements).filter (BubbleSort.Alike greater item)

theorem mem_defined {elements : List JSValue} {element : JSValue} :
    element ∈ defined elements ↔ element ∈ elements ∧ element ≠ .undefined := by
  rw [defined, List.mem_filter, decide_eq_true_iff]

theorem strictWeak_swapsBefore {cmp : JSValue → JSValue → F64} {elements : List JSValue}
    (order : BubbleSort.StrictWeak (Greater cmp) (defined elements)) :
    BubbleSort.StrictWeak (SwapsBefore cmp) elements := by
  constructor
  · rintro a isA b isB ⟨definedB, swaps⟩ ⟨definedA, swapsBack⟩
    exact order.asymm a (mem_defined.mpr ⟨isA, definedA⟩) b (mem_defined.mpr ⟨isB, definedB⟩)
      (swaps.resolve_left definedA) (swapsBack.resolve_left definedB)
  · rintro a isA b isB c isC notFirst notSecond ⟨definedC, swaps⟩
    have definedB : b ≠ .undefined := fun undefinedB => notSecond ⟨definedC, .inl undefinedB⟩
    have definedA : a ≠ .undefined := fun undefinedA => notFirst ⟨definedB, .inl undefinedA⟩
    exact order.trans a (mem_defined.mpr ⟨isA, definedA⟩) b (mem_defined.mpr ⟨isB, definedB⟩) c
      (mem_defined.mpr ⟨isC, definedC⟩) (fun isGreater => notFirst ⟨definedB, .inr isGreater⟩)
      (fun isGreater => notSecond ⟨definedC, .inr isGreater⟩) (swaps.resolve_left definedA)

/-- Values and whether they are undefined: the latter go behind the former. -/
def IsLater (left right : Bool) : Prop := left = true ∧ right = false

instance : DecidableRel IsLater := fun _ _ => inferInstanceAs (Decidable (_ ∧ _))

theorem strictWeak_isLater (flags : List Bool) : BubbleSort.StrictWeak IsLater flags := by
  constructor
  · rintro a - b - ⟨isLater, -⟩ ⟨-, notLater⟩
    rw [isLater] at notLater
    cases notLater
  · rintro a - b - c - notFirst notSecond ⟨isLater, notLater⟩
    cases b with
    | false => exact notFirst ⟨isLater, rfl⟩
    | true => exact notSecond ⟨rfl, notLater⟩

/-- Whatever the comparison is, undefined elements come last. -/
theorem undefinedLast_sort (cmp : JSValue → JSValue → F64) (elements : List JSValue) :
    UndefinedLast (BubbleSort.sort (SwapsBefore cmp) elements) := by
  have refines (a b : JSValue)
      (isLater : IsLater (decide (a = .undefined)) (decide (b = .undefined))) :
      SwapsBefore cmp a b :=
    ⟨of_decide_eq_false isLater.2, .inl (of_decide_eq_true isLater.1)⟩
  have onlyAlike (a b : JSValue) (swaps : SwapsBefore cmp a b) :
      IsLater (decide (a = .undefined)) (decide (b = .undefined)) ∨
        decide (a = JSValue.undefined) = decide (b = JSValue.undefined) := by
    by_cases undefinedA : a = .undefined
    · exact .inl ⟨decide_eq_true undefinedA, decide_eq_false swaps.1⟩
    · exact .inr (by rw [decide_eq_false undefinedA, decide_eq_false swaps.1])
  have flags := BubbleSort.map_sort refines onlyAlike elements
  have sorted := BubbleSort.sort_sorted (strictWeak_isLater
    (elements.map fun value => decide (value = JSValue.undefined)))
  rw [← flags, List.pairwise_map] at sorted
  refine sorted.imp fun notLater undefinedA => ?_
  by_contra definedB
  exact notLater ⟨decide_eq_true undefinedA, decide_eq_false definedB⟩

theorem not_greater_of_not_swapsBefore {cmp : JSValue → JSValue → F64} {a b : JSValue}
    (definedB : b ≠ .undefined) (notSwaps : ¬SwapsBefore cmp a b) : ¬Greater cmp a b :=
  fun isGreater => notSwaps ⟨definedB, .inr isGreater⟩

theorem sortedStably_sort {cmp : JSValue → JSValue → F64} {elements : List JSValue}
    (order : BubbleSort.StrictWeak (Greater cmp) (defined elements)) :
    SortedStably (Greater cmp) elements (BubbleSort.sort (SwapsBefore cmp) elements) := by
  have weak := strictWeak_swapsBefore order
  constructor
  · have sorted := (BubbleSort.sort_sorted weak).filter (· ≠ .undefined)
    refine sorted.imp_of_mem fun _ isB notSwaps => ?_
    exact not_greater_of_not_swapsBefore (mem_defined.mp isB).2 notSwaps
  · intro item isItem
    obtain ⟨isMember, definedItem⟩ := mem_defined.mp isItem
    have stable := BubbleSort.sort_stable weak isMember
      (fun a => decide (BubbleSort.Alike (Greater cmp) item a) && decide (a ≠ .undefined))
      (fun a isA => by
        rw [Bool.and_eq_true, decide_eq_true_iff, decide_eq_true_iff]
        constructor
        · rintro ⟨alike, definedA⟩
          exact ⟨fun swaps => alike.1 (swaps.2.resolve_left definedItem),
            fun swaps => alike.2 (swaps.2.resolve_left definedA)⟩
        · intro alike
          have definedA : a ≠ .undefined :=
            fun undefinedA => alike.2 ⟨definedItem, .inl undefinedA⟩
          exact ⟨⟨not_greater_of_not_swapsBefore definedA alike.1,
            not_greater_of_not_swapsBefore definedItem alike.2⟩, definedA⟩)
    rw [defined, defined, List.filter_filter, List.filter_filter]
    exact stable

/-! ## Without a comparator -/

theorem greater_iff_numberGreater {number : JSValue → F64} {a b : JSValue}
    (numberA : (number a).isNan = false) (numberB : (number b).isNan = false) :
    Greater (fun a b => (number a).sub (number b)) a b ↔ NumberGreater number a b :=
  F64.sub_gt_zero_iff numberA numberB

theorem strictWeak_numberGreater (number : JSValue → F64) (elements : List JSValue)
    (numbers : ∀ element ∈ elements, (number element).isNan = false) :
    BubbleSort.StrictWeak (NumberGreater number) elements := by
  have keys (a b : JSValue) (isA : a ∈ elements) (isB : b ∈ elements) :
      NumberGreater number a b ↔ (number b).key < (number a).key := by
    rw [NumberGreater, F64.partialCmp_gt_iff]
    exact ⟨fun all => all.2.2, fun less => ⟨numbers a isA, numbers b isB, less⟩⟩
  constructor
  · intro a isA b isB
    rw [keys a b isA isB, keys b a isB isA]
    omega
  · intro a isA b isB c isC
    rw [keys a b isA isB, keys b c isB isC, keys a c isA isC]
    omega

theorem sortedStably_congr {first second : JSValue → JSValue → Prop} [DecidableRel first]
    [DecidableRel second] {elements out : List JSValue} (perm : out.Perm elements)
    (same : ∀ a ∈ defined elements, ∀ b ∈ defined elements, first a b ↔ second a b)
    (sortedStably : SortedStably first elements out) : SortedStably second elements out := by
  have permDefined : (defined out).Perm (defined elements) := perm.filter _
  constructor
  · refine sortedStably.sorted.imp_of_mem fun isA isB notGreater => ?_
    rwa [← same _ (permDefined.subset isA) _ (permDefined.subset isB)]
  · intro item isItem
    have alike (a : JSValue) (isA : a ∈ defined elements) :
        decide (BubbleSort.Alike first item a) = decide (BubbleSort.Alike second item a) := by
      rw [decide_eq_decide, BubbleSort.Alike, BubbleSort.Alike, same item isItem a isA,
        same a isA item isItem]
    have stable := sortedStably.stable item isItem
    rw [List.filter_congr alike,
      List.filter_congr fun a isA => alike a (permDefined.subset isA)] at stable
    exact stable

/-! ## The builtin -/

/-- Sorting permutes the elements and puts the undefined ones last.  By a comparator that
is a total preorder the defined ones are sorted stably; without one they are sorted stably by
their numbers.  No index is outside of the array. -/
theorem arraySort_sorts (conversions : Conversions) (ctx : Context)
    (comparator : Option Comparator) (elements : List JSValue) :
    (arraySort conversions ctx comparator elements).Perm elements ∧
    UndefinedLast (arraySort conversions ctx comparator elements) ∧
    (BubbleSort.StrictWeak (Greater (sortCompare conversions ctx comparator)) (defined elements) →
      SortedStably (Greater (sortCompare conversions ctx comparator)) elements
        (arraySort conversions ctx comparator elements)) ∧
    (comparator = none →
      (∀ element ∈ defined elements, (elementNumber conversions ctx element).isNan = false) →
      SortedStably (NumberGreater (elementNumber conversions ctx)) elements
        (arraySort conversions ctx comparator elements)) ∧
    ∀ index ∈ sortIndices elements.length, index < elements.length := by
  have perm : (arraySort conversions ctx comparator elements).Perm elements := by
    rw [arraySort_eq]
    exact BubbleSort.sort_perm elements
  refine ⟨perm, ?_, ?_, ?_, ?_⟩
  · rw [arraySort_eq]
    exact undefinedLast_sort _ elements
  · intro order
    rw [arraySort_eq]
    exact sortedStably_sort order
  · rintro rfl numbers
    have same (a : JSValue) (isA : a ∈ defined elements) (b : JSValue)
        (isB : b ∈ defined elements) :
        NumberGreater (elementNumber conversions ctx) a b ↔
          Greater (sortCompare conversions ctx none) a b :=
      (greater_iff_numberGreater (numbers a isA) (numbers b isB)).symm
    have weak := strictWeak_numberGreater (elementNumber conversions ctx) (defined elements) numbers
    have order : BubbleSort.StrictWeak (Greater (sortCompare conversions ctx none))
        (defined elements) := by
      constructor
      · intro a isA b isB
        rw [← same a isA b isB, ← same b isB a isA]
        exact weak.asymm a isA b isB
      · intro a isA b isB c isC
        rw [← same a isA b isB, ← same b isB c isC, ← same a isA c isC]
        exact weak.trans a isA b isB c isC
    refine sortedStably_congr perm (fun a isA b isB => (same a isA b isB).symm) ?_
    rw [arraySort_eq]
    exact sortedStably_sort order
  · intro index isIndex
    obtain ⟨i, isTurn, isInner⟩ := List.mem_flatMap.mp isIndex
    obtain ⟨j, isStep, isPair⟩ := List.mem_flatMap.mp isInner
    rw [List.mem_range] at isTurn isStep
    rw [List.mem_cons, List.mem_singleton] at isPair
    omega

/-- Without a comparator two is sorted before ten, though its text is greater. -/
theorem arraySort_not_by_text :
    ¬∀ (conversions : Conversions) (ctx : Context) (numbers : List Int32),
      ∃ sorted : List Int32,
        arraySort conversions ctx none (numbers.map .int) = sorted.map .int ∧
        sorted.Pairwise fun m n => Json.i32Bytes m ≤ Json.i32Bytes n := by
  intro byText
  obtain ⟨sorted, isSorted, ordered⟩ := byText plainConversions (Context.new 4096) [2, 10]
  have notSwaps : ¬SwapsBefore (sortCompare plainConversions (Context.new 4096) none)
      (.int 2) (.int 10) := by
    rintro ⟨-, isUndefined | isGreater⟩
    · cases isUndefined
    · have less := (@F64.sub_gt_zero_iff (i32AsF64 2) (i32AsF64 10) (by decide)
        (by decide)).mp isGreater
      exact absurd less (by decide)
  have kept : arraySort plainConversions (Context.new 4096) none [.int 2, .int 10] =
      [.int 2, .int 10] := by
    rw [arraySort_eq, BubbleSort.sort, List.length_cons, List.length_cons, List.length_nil,
      BubbleSort.passes, BubbleSort.pass, if_neg notSwaps]
    rfl
  have same : sorted = [2, 10] := by
    have maps : sorted.map JSValue.int = [2, 10].map JSValue.int := isSorted.symm.trans kept
    exact List.map_injective_iff.mpr (fun _ _ same => JSValue.int.inj same) maps
  rw [same] at ordered
  exact absurd (List.rel_of_pairwise_cons ordered (List.mem_singleton_self _)) (by decide)

end Script
end MuonJs
