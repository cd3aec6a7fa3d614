import Mathlib

/-!
# A table with an index by hash

Items get positions in the order in which they are added, and an index keeps, for every
hash, the position that was last added under it.  An item is looked up at that position, and
among all items where another one stands there.  Whatever items share a hash, an item is
found exactly at its position.
-/

namespace MuonJs
namespace HashIndex

variable {α κ : Type*}

/-- Items by position, some of which may be reserved, and the last position of every hash. -/
structure Table (α κ : Type*) where
  items : List (Option α)
  index : κ → Option ℕ

namespace Table

/-- The position of an item. -/
def find [DecidableEq α] (hash : α → κ) (table : Table α κ) (item : α) : Option ℕ :=
  match table.index (hash item) with
  | none => none
  | some position =>
      if table.items[position]? = some (some item) then some position
      else table.items.findIdx? (· = some item)

/-- The table with one more item. -/
def push [DecidableEq κ] (hash : α → κ) (table : Table α κ) (item : α) : Table α κ :=
  ⟨table.items ++ [some item],
    Function.update table.index (hash item) (some table.items.length)⟩

/-- Every item stands at one position, and its hash is in the index. -/
structure WellFormed (hash : α → κ) (table : Table α κ) : Prop where
  distinct : ∀ (left right : ℕ) (item : α), table.items[left]? = some (some item) →
    table.items[right]? = some (some item) → left = right
  indexed : ∀ (position : ℕ) (item : α), table.items[position]? = some (some item) →
    (table.index (hash item)).isSome

variable {hash : α → κ} {table : Table α κ}

section Find

variable [DecidableEq α]

/-- Where an item is found, it stands. -/
theorem getElem?_of_find {item : α} {position : ℕ}
    (isFound : table.find hash item = some position) :
    table.items[position]? = some (some item) := by
  unfold find at isFound
  split at isFound
  · cases isFound
  · split at isFound
    · rename_i isItem
      rw [← Option.some.inj isFound]
      exact isItem
    · obtain ⟨inRange, isItem, -⟩ := List.findIdx?_eq_some_iff_getElem.mp isFound
      rw [List.getElem?_eq_getElem inRange, of_decide_eq_true isItem]

/-- An item whose hash is in the index is found if it stands somewhere. -/
theorem mem_of_find_eq_none {item : α} (isIndexed : (table.index (hash item)).isSome)
    (notFound : table.find hash item = none) : some item ∉ table.items := by
  obtain ⟨last, isLast⟩ := Option.isSome_iff_exists.mp isIndexed
  intro isItem
  rw [find, isLast] at notFound
  dsimp only at notFound
  split at notFound
  · cases notFound
  · have isOther := List.findIdx?_eq_none_iff.mp notFound (some item) isItem
    exact of_decide_eq_false isOther rfl

/-- An item is found exactly at its position. -/
theorem WellFormed.find_eq_some_iff (wellFormed : table.WellFormed hash) (item : α)
    (position : ℕ) :
    table.find hash item = some position ↔ table.items[position]? = some (some item) := by
  refine ⟨getElem?_of_find, fun isItem => ?_⟩
  cases isFound : table.find hash item with
  | some other =>
      rw [wellFormed.distinct position other item isItem (getElem?_of_find isFound)]
  | none =>
      exact absurd (List.mem_of_getElem? isItem)
        (mem_of_find_eq_none (wellFormed.indexed position item isItem) isFound)

theorem WellFormed.find_eq_none_iff (wellFormed : table.WellFormed hash) (item : α) :
    table.find hash item = none ↔ some item ∉ table.items := by
  constructor
  · intro notFound isItem
    obtain ⟨position, isPosition⟩ := List.mem_iff_getElem?.mp isItem
    rw [(wellFormed.find_eq_some_iff item position).mpr isPosition] at notFound
    cases notFound
  · intro absent
    rw [Option.eq_none_iff_forall_not_mem]
    exact fun position isFound => absent (List.mem_of_getElem? (getElem?_of_find isFound))

end Find

section Push

variable [DecidableEq κ]

/-- What stands in a table with one more item. -/
theorem getElem?_push {item other : α} {position : ℕ}
    (isOther : (table.push hash item).items[position]? = some (some other)) :
    table.items[position]? = some (some other) ∨
      position = table.items.length ∧ other = item := by
  rw [push, List.getElem?_append] at isOther
  split at isOther
  · exact .inl isOther
  · obtain ⟨isZero, isItem⟩ := List.getElem?_eq_some_iff.mp isOther
    rw [List.length_singleton] at isZero
    rw [List.getElem_singleton, Option.some.injEq] at isItem
    exact .inr ⟨by omega, isItem.symm⟩

/-- A new item keeps the table in order. -/
theorem WellFormed.push (wellFormed : table.WellFormed hash) {item : α}
    (absent : some item ∉ table.items) : (table.push hash item).WellFormed hash where
  distinct := by
    intro left right other isLeft isRight
    rcases getElem?_push isLeft with leftOld | ⟨leftNew, isItem⟩ <;>
      rcases getElem?_push isRight with rightOld | ⟨rightNew, isSame⟩
    · exact wellFormed.distinct left right other leftOld rightOld
    · rw [isSame] at leftOld
      exact absurd (List.mem_of_getElem? leftOld) absent
    · rw [isItem] at rightOld
      exact absurd (List.mem_of_getElem? rightOld) absent
    · rw [leftNew, rightNew]
  indexed := by
    intro position other isOther
    change (Function.update table.index (hash item) _ (hash other)).isSome = true
    by_cases sameHash : hash other = hash item
    · rw [sameHash, Function.update_self]
      rfl
    · rw [Function.update_of_ne sameHash]
      rcases getElem?_push isOther with isOld | ⟨-, isItem⟩
      · exact wellFormed.indexed position other isOld
      · exact absurd (congrArg hash isItem) sameHash

end Push

end Table

end HashIndex
end MuonJs
