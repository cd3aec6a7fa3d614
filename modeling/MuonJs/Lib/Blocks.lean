import Mathlib

/-!
# Blocks of memory

A block is a start and a length.  Blocks that are taken one behind the other, none before
the end of the one before it, are pairwise apart and lie between the first start allowed and
the end of the last.
-/

namespace MuonJs
namespace Blocks

/-- A part of memory. -/
structure Block where
  start : ℕ
  length : ℕ
  deriving DecidableEq

/-- One of the blocks ends before the other starts. -/
def Block.Apart (left right : Block) : Prop :=
  left.start + left.length ≤ right.start ∨ right.start + right.length ≤ left.start

/-- Blocks one behind the other from `low` on, that end before `high`. -/
inductive Stacked : ℕ → List Block → ℕ → Prop
  | nil {low high : ℕ} (room : low ≤ high) : Stacked low [] high
  | cons {low high : ℕ} {block : Block} {blocks : List Block} (behind : low ≤ block.start)
      (rest : Stacked (block.start + block.length) blocks high) :
      Stacked low (block :: blocks) high

namespace Stacked

variable {low high : ℕ} {blocks : List Block}

/-- Every block lies between the bounds. -/
theorem inside (stacked : Stacked low blocks high) :
    ∀ block ∈ blocks, low ≤ block.start ∧ block.start + block.length ≤ high := by
  induction stacked with
  | nil => exact fun block isBlock => by cases isBlock
  | @cons low high first blocks behind rest ih =>
      have ends : first.start + first.length ≤ high := by
        cases rest with
        | nil room => exact room
        | cons behindFirst rest =>
            have next := ih _ List.mem_cons_self
            omega
      intro block isBlock
      rcases List.mem_cons.mp isBlock with rfl | isLater
      · exact ⟨behind, ends⟩
      · have bounds := ih block isLater
        omega

/-- The blocks are pairwise apart. -/
theorem pairwise (stacked : Stacked low blocks high) : blocks.Pairwise Block.Apart := by
  induction stacked with
  | nil => exact List.Pairwise.nil
  | cons behind rest ih =>
      exact List.Pairwise.cons (fun block isLater => .inl (rest.inside block isLater).1) ih

end Stacked

end Blocks
end MuonJs
