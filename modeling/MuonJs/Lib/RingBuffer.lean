import Mathlib

/-!
# Ring buffers as two slices

A double-ended queue keeps its elements in a ring, so that they lie in two
contiguous slices: the elements up to the end of the storage, then those that
wrapped around to its start.  `items` reads the two as one list.  An operation
is specified by what it does to `items`; where the elements lie afterwards is
left to the operation.
-/

namespace MuonJs

/-- `list[low..high]`, `none` where the bounds are out of order or the end is
past the end of the list. -/
def checkedSlice (list : List α) (low high : Nat) : Option (List α) :=
  if low ≤ high ∧ high ≤ list.length then some ((list.take high).drop low)
  else none

theorem checkedSlice_eq_some
    {list : List α} {low high : Nat}
    (ordered : low ≤ high) (bounded : high ≤ list.length) :
    checkedSlice list low high = some ((list.take high).drop low) :=
  if_pos ⟨ordered, bounded⟩

/-- A queue whose elements lie in two slices of a ring.  The length of a
collection fits a signed machine word. -/
structure RingBuffer (α : Type) where
  front : List α
  back : List α
  fits : front.length + back.length < 2 ^ 63

namespace RingBuffer

variable {α : Type}

/-- The elements, in order. -/
def items (queue : RingBuffer α) : List α := queue.front ++ queue.back

theorem length_items (queue : RingBuffer α) :
    queue.items.length = queue.front.length + queue.back.length :=
  List.length_append

theorem length_items_lt (queue : RingBuffer α) : queue.items.length < 2 ^ 63 := by
  rw [length_items]
  exact queue.fits

/-- A queue whose elements have not wrapped around. -/
def ofList (list : List α) (fits : list.length < 2 ^ 63) : RingBuffer α :=
  ⟨list, [], fits⟩

@[simp] theorem items_ofList (list : List α) (fits : list.length < 2 ^ 63) :
    (ofList list fits).items = list :=
  List.append_nil list

/-- The queue without elements. -/
def clear : RingBuffer α := ⟨[], [], Nat.two_pow_pos 63⟩

/-- Keep the first `count` elements, all of them where there are fewer. -/
def truncate (queue : RingBuffer α) (count : Nat) : RingBuffer α where
  front := queue.front.take count
  back := queue.back.take (count - queue.front.length)
  fits := by
    have bounded := queue.fits
    rw [List.length_take, List.length_take]
    omega

@[simp] theorem items_truncate (queue : RingBuffer α) (count : Nat) :
    (queue.truncate count).items = queue.items.take count :=
  List.take_append.symm

/-- Remove the first `count` elements; `none` where there are fewer. -/
def drainFront (queue : RingBuffer α) (count : Nat) : Option (RingBuffer α) :=
  if count ≤ queue.items.length then
    some {
      front := queue.front.drop count
      back := queue.back.drop (count - queue.front.length)
      fits := by
        have bounded := queue.fits
        rw [List.length_drop, List.length_drop]
        omega }
  else none

theorem drainFront_eq_none_iff (queue : RingBuffer α) (count : Nat) :
    queue.drainFront count = none ↔ queue.items.length < count := by
  rw [drainFront]
  split
  case isTrue enough =>
    constructor
    · intro absent
      cases absent
    · intro fewer
      omega
  case isFalse fewer => exact ⟨fun _ => by omega, fun _ => rfl⟩

theorem items_drainFront
    {queue : RingBuffer α} {count : Nat} (enough : count ≤ queue.items.length) :
    (queue.drainFront count).map items = some (queue.items.drop count) := by
  rw [drainFront, if_pos enough, Option.map_some]
  exact congrArg some List.drop_append.symm

end RingBuffer
end MuonJs
