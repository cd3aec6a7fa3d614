import Mathlib.Data.List.Basic
import Mathlib.Data.List.Perm.Basic
import Mathlib.Data.List.Pairwise

/-!
# Bubble sort

Passes of swaps of neighbours, each one shorter by an item than the pass before it.  The
list is permuted whatever the relation is.  When the relation is a strict weak order the
list is sorted, and items that are not told apart keep their order.
-/

namespace MuonJs
namespace BubbleSort

variable {α β : Type*}

/-- The items are ordered up to items that are not told apart. -/
structure StrictWeak (greater : α → α → Prop) (items : List α) : Prop where
  asymm : ∀ a ∈ items, ∀ b ∈ items, greater a b → ¬greater b a
  trans : ∀ a ∈ items, ∀ b ∈ items, ∀ c ∈ items,
    ¬greater a b → ¬greater b c → ¬greater a c

/-- Two items that the relation does not tell apart. -/
def Alike (greater : α → α → Prop) (a b : α) : Prop := ¬greater a b ∧ ¬greater b a

theorem StrictWeak.subset {greater : α → α → Prop} {items others : List α}
    (order : StrictWeak greater items) (subset : others ⊆ items) : StrictWeak greater others :=
  ⟨fun a isA b isB => order.asymm a (subset isA) b (subset isB),
    fun a isA b isB c isC => order.trans a (subset isA) b (subset isB) c (subset isC)⟩

variable (greater : α → α → Prop) [DecidableRel greater]

/-- One pass over the first items: so many neighbours are compared. -/
def pass : ℕ → List α → List α
  | 0, items => items
  | _ + 1, [] => []
  | _ + 1, [a] => [a]
  | count + 1, a :: b :: rest =>
      if greater a b then b :: pass count (a :: rest) else a :: pass count (b :: rest)

/-- The passes, from so many comparisons down to none. -/
def passes : ℕ → List α → List α
  | 0, items => items
  | count + 1, items => passes count (pass greater (count + 1) items)

/-- Bubble sort. -/
def sort (items : List α) : List α := passes greater (items.length - 1) items

variable {greater}

/-! ## Permutation -/

theorem pass_perm (count : ℕ) (items : List α) : (pass greater count items).Perm items := by
  fun_induction pass greater count items with
  | case1 => exact .refl _
  | case2 => exact .refl _
  | case3 => exact .refl _
  | case4 count a b rest isGreater hypothesis => exact (hypothesis.cons b).trans (.swap a b rest)
  | case5 count a b rest notGreater hypothesis => exact hypothesis.cons a

theorem passes_perm (count : ℕ) (items : List α) : (passes greater count items).Perm items := by
  induction count generalizing items with
  | zero => exact .refl _
  | succ count hypothesis => exact (hypothesis _).trans (pass_perm _ _)

theorem sort_perm (items : List α) : (sort greater items).Perm items := passes_perm _ _

/-! ## Order -/

/-- A pass over all neighbours carries an item to the end that is not less than any. -/
theorem pass_last (first : α) (rest : List α) (order : StrictWeak greater (first :: rest)) :
    ∃ front last, pass greater rest.length (first :: rest) = front ++ [last] ∧
      last ∈ first :: rest ∧ ∀ item ∈ first :: rest, ¬greater item last := by
  induction rest generalizing first with
  | nil =>
      refine ⟨[], first, rfl, List.mem_cons_self, ?_⟩
      intro item isItem isGreater
      obtain rfl := List.mem_singleton.mp isItem
      exact order.asymm item isItem item isItem isGreater isGreater
  | cons second rest hypothesis =>
      have isFirst : first ∈ first :: second :: rest := List.mem_cons_self
      have isSecond : second ∈ first :: second :: rest :=
        List.mem_cons_of_mem _ List.mem_cons_self
      rw [List.length_cons, pass]
      split
      · rename_i isGreater
        have subset : first :: rest ⊆ first :: second :: rest :=
          List.cons_subset_cons _ (List.subset_cons_self _ _)
        obtain ⟨front, last, isPass, isMember, greatest⟩ :=
          hypothesis first (order.subset subset)
        refine ⟨second :: front, last, by rw [isPass]; rfl, subset isMember, ?_⟩
        intro item isItem
        obtain rfl | isItem := List.mem_cons.mp isItem
        · exact greatest item List.mem_cons_self
        obtain rfl | isItem := List.mem_cons.mp isItem
        · exact order.trans item isSecond first isFirst last (subset isMember)
            (order.asymm first isFirst item isSecond isGreater)
            (greatest first List.mem_cons_self)
        · exact greatest item (List.mem_cons_of_mem _ isItem)
      · rename_i notGreater
        have subset : second :: rest ⊆ first :: second :: rest := List.subset_cons_self _ _
        obtain ⟨front, last, isPass, isMember, greatest⟩ :=
          hypothesis second (order.subset subset)
        refine ⟨first :: front, last, by rw [isPass]; rfl, subset isMember, ?_⟩
        intro item isItem
        obtain rfl | isItem := List.mem_cons.mp isItem
        · exact order.trans item isFirst second isSecond last (subset isMember) notGreater
            (greatest second List.mem_cons_self)
        · exact greatest item isItem

/-- A pass does not reach the items behind it. -/
theorem pass_append (count : ℕ) (front back : List α) (short : count < front.length) :
    pass greater count (front ++ back) = pass greater count front ++ back := by
  induction count generalizing front with
  | zero => rfl
  | succ count hypothesis =>
      cases front with
      | nil => exact absurd short (Nat.not_lt_zero _)
      | cons a tail =>
          cases tail with
          | nil => exact absurd (Nat.lt_of_succ_lt_succ short) (Nat.not_lt_zero _)
          | cons b rest =>
              rw [List.cons_append, List.cons_append, pass, pass]
              have less : count < (a :: rest).length := by
                rw [List.length_cons, List.length_cons] at short
                rw [List.length_cons]
                omega
              split
              · have later := hypothesis (a :: rest) less
                rw [List.cons_append] at later
                rw [later, List.cons_append]
              · have later := hypothesis (b :: rest) less
                rw [List.cons_append] at later
                rw [later, List.cons_append]

/-- The passes over the items before those that are sorted already. -/
theorem passes_sorted (count : ℕ) (front back : List α) (isCount : front.length ≤ count + 1)
    (exact : count = 0 ∨ front.length = count + 1)
    (order : StrictWeak greater (front ++ back))
    (isSorted : back.Pairwise fun a b => ¬greater a b)
    (separated : ∀ a ∈ front, ∀ b ∈ back, ¬greater a b) :
    (passes greater count (front ++ back)).Pairwise fun a b => ¬greater a b := by
  induction count generalizing front back with
  | zero =>
      rw [passes, List.pairwise_append]
      refine ⟨?_, isSorted, separated⟩
      cases front with
      | nil => exact .nil
      | cons a tail =>
          have isNil : tail = [] := List.length_eq_zero_iff.mp (by
            rw [List.length_cons] at isCount
            omega)
          rw [isNil]
          exact List.pairwise_singleton _ a
  | succ count hypothesis =>
      have isLength : front.length = count + 2 := by
        obtain wrong | isLength := exact
        · exact absurd wrong (Nat.succ_ne_zero count)
        · exact isLength
      cases front with
      | nil => exact absurd isLength (Nat.succ_ne_zero (count + 1)).symm
      | cons first rest =>
          have restLength : rest.length = count + 1 := Nat.succ.inj isLength
          obtain ⟨newFront, last, isPass, isMember, greatest⟩ := pass_last first rest
            (order.subset (List.subset_append_left _ _))
          rw [restLength] at isPass
          have perm : (pass greater (count + 1) (first :: rest)).Perm (first :: rest) :=
            pass_perm _ _
          rw [isPass] at perm
          have frontLength : newFront.length = count + 1 := by
            have lengths := perm.length_eq
            rw [List.length_append, List.length_singleton, isLength] at lengths
            omega
          have fromOld (item : α) (isItem : item ∈ newFront) : item ∈ first :: rest :=
            perm.subset (List.mem_append_left _ isItem)
          rw [passes, pass_append _ _ _ (by rw [isLength]; omega), isPass, List.append_assoc,
            List.singleton_append]
          refine hypothesis newFront (last :: back) (by omega) (.inr frontLength) ?_ ?_ ?_
          · refine order.subset ?_
            intro item isItem
            rw [List.mem_append, List.mem_cons] at isItem
            rw [List.mem_append]
            obtain isItem | rfl | isItem := isItem
            · exact .inl (fromOld item isItem)
            · exact .inl isMember
            · exact .inr isItem
          · exact List.pairwise_cons.mpr ⟨fun b isB => separated last isMember b isB, isSorted⟩
          · intro a isA b isB
            obtain rfl | isB := List.mem_cons.mp isB
            · exact greatest a (fromOld a isA)
            · exact separated a (fromOld a isA) b isB

/-- Bubble sort sorts. -/
theorem sort_sorted {items : List α} (order : StrictWeak greater items) :
    (sort greater items).Pairwise fun a b => ¬greater a b := by
  have all := passes_sorted (items.length - 1) items [] (by omega) (by omega)
    (by rwa [List.append_nil]) .nil (fun _ _ _ absent => absurd absent List.not_mem_nil)
  rwa [List.append_nil] at all

/-! ## Stability -/

theorem filter_swap {keep : α → Bool} {a b : α} (apart : ¬(keep a = true ∧ keep b = true))
    (rest : List α) : (b :: a :: rest).filter keep = (a :: b :: rest).filter keep := by
  cases keepsA : keep a with
  | false => simp [List.filter_cons, keepsA]
  | true =>
      cases keepsB : keep b with
      | false => simp [keepsA, keepsB]
      | true => exact absurd ⟨keepsA, keepsB⟩ apart

/-- A class of items none of which is greater than another keeps its order in a pass. -/
theorem pass_filter {keep : α → Bool} (count : ℕ) (items : List α)
    (apart : ∀ a ∈ items, ∀ b ∈ items, greater a b → ¬(keep a = true ∧ keep b = true)) :
    (pass greater count items).filter keep = items.filter keep := by
  fun_induction pass greater count items with
  | case1 => rfl
  | case2 => rfl
  | case3 => rfl
  | case4 count a b rest isGreater hypothesis =>
      have isA : a ∈ a :: b :: rest := List.mem_cons_self
      have isB : b ∈ a :: b :: rest := List.mem_cons_of_mem _ List.mem_cons_self
      have later := hypothesis fun c isC d isD => apart c
        (List.cons_subset_cons _ (List.subset_cons_self _ _) isC) d
        (List.cons_subset_cons _ (List.subset_cons_self _ _) isD)
      rw [List.filter_cons, later, ← List.filter_cons]
      exact filter_swap (apart a isA b isB isGreater) rest
  | case5 count a b rest notGreater hypothesis =>
      have later := hypothesis fun c isC d isD => apart c (List.mem_cons_of_mem _ isC) d
        (List.mem_cons_of_mem _ isD)
      rw [List.filter_cons, later, ← List.filter_cons]

theorem passes_filter {keep : α → Bool} (count : ℕ) (items : List α)
    (apart : ∀ a ∈ items, ∀ b ∈ items, greater a b → ¬(keep a = true ∧ keep b = true)) :
    (passes greater count items).filter keep = items.filter keep := by
  induction count generalizing items with
  | zero => rfl
  | succ count hypothesis =>
      have perm : (pass greater (count + 1) items).Perm items := pass_perm _ _
      rw [passes, hypothesis _ fun a isA b isB => apart a (perm.subset isA) b (perm.subset isB)]
      exact pass_filter _ _ apart

/-- Items that are alike to an item keep their order. -/
theorem sort_stable {items : List α} (order : StrictWeak greater items) {item : α}
    (isItem : item ∈ items) (keep : α → Bool)
    (isKeep : ∀ a ∈ items, keep a = true ↔ Alike greater item a) :
    (sort greater items).filter keep = items.filter keep := by
  refine passes_filter _ _ fun a isA b isB isGreater => ?_
  rintro ⟨keepsA, keepsB⟩
  have alikeA := (isKeep a isA).mp keepsA
  have alikeB := (isKeep b isB).mp keepsB
  exact order.trans a isA item isItem b isB alikeA.2 alikeB.1 isGreater

/-! ## Coarser orders -/

variable {coarse : β → β → Prop} [DecidableRel coarse] {f : α → β}

/-- A pass sorts by a coarser relation too when the finer one decides only what the coarser
one does not tell apart. -/
theorem map_pass (refines : ∀ a b, coarse (f a) (f b) → greater a b)
    (onlyAlike : ∀ a b, greater a b → coarse (f a) (f b) ∨ f a = f b) (count : ℕ)
    (items : List α) : (pass greater count items).map f = pass coarse count (items.map f) := by
  fun_induction pass greater count items with
  | case1 => rfl
  | case2 => rfl
  | case3 => rfl
  | case4 count a b rest isGreater hypothesis =>
      rw [List.map_cons, List.map_cons, List.map_cons, pass, hypothesis, List.map_cons]
      split
      · rfl
      · rename_i notCoarse
        obtain isCoarse | same := onlyAlike a b isGreater
        · exact absurd isCoarse notCoarse
        · rw [same]
  | case5 count a b rest notGreater hypothesis =>
      rw [List.map_cons, List.map_cons, List.map_cons, pass, hypothesis, List.map_cons,
        if_neg (fun isCoarse => notGreater (refines a b isCoarse))]

theorem map_passes (refines : ∀ a b, coarse (f a) (f b) → greater a b)
    (onlyAlike : ∀ a b, greater a b → coarse (f a) (f b) ∨ f a = f b) (count : ℕ)
    (items : List α) : (passes greater count items).map f = passes coarse count (items.map f) := by
  induction count generalizing items with
  | zero => rfl
  | succ count hypothesis => rw [passes, passes, hypothesis, map_pass refines onlyAlike]

theorem map_sort (refines : ∀ a b, coarse (f a) (f b) → greater a b)
    (onlyAlike : ∀ a b, greater a b → coarse (f a) (f b) ∨ f a = f b) (items : List α) :
    (sort greater items).map f = sort coarse (items.map f) := by
  rw [sort, sort, map_passes refines onlyAlike, List.length_map]

end BubbleSort
end MuonJs
