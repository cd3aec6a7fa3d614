import Mathlib

/-!
# Stack heights of jump code

The code of a stack machine, seen through what each instruction takes from the
stack, what it leaves there and where it continues.  A segment raises the stack
from one height to another when every position in it can be given a height on
which all paths agree.  Segments compose, and a machine that follows the code
has the given height at every position it comes to.
-/

namespace MuonJs
namespace StackCode

/-- Where an instruction continues. -/
inductive Flow
  | next
  | jump (target : ℕ)
  | branch (target : ℕ)
  | stop

/-- The positions at which an instruction can continue. -/
def Flow.targets (position : ℕ) : Flow → List ℕ
  | .next => [position + 1]
  | .jump target => [target]
  | .branch target => [target, position + 1]
  | .stop => []

/-- What an instruction takes, what it leaves, and where it continues. -/
structure Shape where
  pops : ℕ
  pushes : ℕ
  flow : Flow

/-- The heights fit a piece of code whose jumps stay between two positions. -/
def Fits (low high start : ℕ) (code : List Shape) (height : ℕ → ℕ) : Prop :=
  ∀ offset shape, code[offset]? = some shape →
    shape.pops ≤ height (start + offset) ∧
      ∀ target ∈ shape.flow.targets (start + offset),
        low ≤ target ∧ target ≤ high ∧
          height target = height (start + offset) - shape.pops + shape.pushes

/-- A segment with jumps into itself that raises the stack from one height to
another. -/
def Raises (start : ℕ) (code : List Shape) (before after : ℕ) : Prop :=
  ∃ height : ℕ → ℕ, height start = before ∧ height (start + code.length) = after ∧
    Fits start (start + code.length) start code height

/-! ## Heights that fit -/

section Fits

variable {low high start : ℕ} {code first second : List Shape} {height : ℕ → ℕ}

theorem Fits.nil : Fits low high start [] height := by
  intro offset shape isShape
  cases isShape

theorem fits_append :
    Fits low high start (first ++ second) height ↔
      Fits low high start first height ∧
        Fits low high (start + first.length) second height := by
  constructor
  · intro fits
    constructor
    · intro offset shape isShape
      refine fits offset shape ?_
      rw [List.getElem?_append_left (List.getElem?_eq_some_iff.mp isShape).1, isShape]
    · intro offset shape isShape
      rw [Nat.add_assoc]
      refine fits (first.length + offset) shape ?_
      rw [List.getElem?_append_right (Nat.le_add_right _ _), Nat.add_sub_cancel_left, isShape]
  · rintro ⟨fitsFirst, fitsSecond⟩ offset shape isShape
    rw [List.getElem?_append] at isShape
    split at isShape
    · exact fitsFirst offset shape isShape
    · have later := fitsSecond (offset - first.length) shape isShape
      rwa [Nat.add_assoc, Nat.add_sub_cancel' (by omega)] at later

theorem fits_singleton {shape : Shape} :
    Fits low high start [shape] height ↔
      shape.pops ≤ height start ∧
        ∀ target ∈ shape.flow.targets start,
          low ≤ target ∧ target ≤ high ∧
            height target = height start - shape.pops + shape.pushes := by
  constructor
  · intro fits
    exact fits 0 shape rfl
  · intro fits offset other isOther
    obtain ⟨isFirst, isShape⟩ := List.getElem?_eq_some_iff.mp isOther
    rw [List.length_singleton] at isFirst
    have isZero : offset = 0 := by omega
    subst isZero
    cases isShape
    exact fits

theorem fits_cons {shape : Shape} :
    Fits low high start (shape :: code) height ↔
      (shape.pops ≤ height start ∧
        ∀ target ∈ shape.flow.targets start,
          low ≤ target ∧ target ≤ high ∧
            height target = height start - shape.pops + shape.pushes) ∧
        Fits low high (start + 1) code height := by
  rw [← fits_singleton, ← List.singleton_append]
  exact fits_append

/-- Only the heights in the segment matter. -/
theorem Fits.congr
    {other : ℕ → ℕ} (fits : Fits start (start + code.length) start code height)
    (lowBound : low ≤ start) (highBound : start + code.length ≤ high)
    (same : ∀ position, start ≤ position → position ≤ start + code.length →
      other position = height position) : Fits low high start code other := by
  intro offset shape isShape
  have inCode := (List.getElem?_eq_some_iff.mp isShape).1
  obtain ⟨enough, continues⟩ := fits offset shape isShape
  have here := same (start + offset) (by omega) (by omega)
  refine ⟨by rw [here]; exact enough, fun target isTarget => ?_⟩
  obtain ⟨above, below, isHeight⟩ := continues target isTarget
  exact ⟨by omega, by omega, by rw [same target above below, here, isHeight]⟩

end Fits

/-! ## Segments -/

namespace Raises

variable {start low middle high : ℕ} {first second body : List Shape}

theorem nil (start height : ℕ) : Raises start [] height height :=
  ⟨fun _ => height, rfl, rfl, .nil⟩

/-- An instruction that goes on to the next one. -/
theorem single {shape : Shape} (goesOn : shape.flow = .next) (enough : shape.pops ≤ low) :
    Raises start [shape] low (low - shape.pops + shape.pushes) := by
  refine ⟨fun position => if position = start then low else low - shape.pops + shape.pushes,
    if_pos rfl, if_neg (Nat.succ_ne_self start), fits_singleton.mpr ⟨?_, ?_⟩⟩
  · rw [if_pos rfl]
    exact enough
  · intro target isTarget
    rw [goesOn, Flow.targets, List.mem_singleton] at isTarget
    subst isTarget
    rw [if_pos rfl, if_neg (Nat.succ_ne_self start)]
    exact ⟨Nat.le_succ _, Nat.le_refl _, rfl⟩

/-- An instruction that stops: what follows may have any height. -/
theorem stop {shape : Shape} (stops : shape.flow = .stop) (enough : shape.pops ≤ low) :
    Raises start [shape] low high := by
  refine ⟨fun position => if position = start then low else high,
    if_pos rfl, if_neg (Nat.succ_ne_self start), fits_singleton.mpr ⟨?_, ?_⟩⟩
  · rw [if_pos rfl]
    exact enough
  · intro target isTarget
    rw [stops] at isTarget
    cases isTarget

theorem append
    (former : Raises start first low middle)
    (latter : Raises (start + first.length) second middle high) :
    Raises start (first ++ second) low high := by
  obtain ⟨height, isLow, isMiddle, fits⟩ := former
  obtain ⟨height', isMiddle', isHigh, fits'⟩ := latter
  have length_eq : (first ++ second).length = first.length + second.length :=
    List.length_append
  refine ⟨fun position => if position < start + first.length then height position
    else height' position, ?_, ?_, fits_append.mpr ⟨?_, ?_⟩⟩
  · dsimp only
    split
    · exact isLow
    · rename_i atEnd
      have isEmpty : start + first.length = start := by omega
      rw [isEmpty] at isMiddle isMiddle'
      rw [isMiddle', ← isMiddle, isLow]
  · dsimp only
    rw [length_eq, if_neg (by omega), ← Nat.add_assoc, isHigh]
  · refine fits.congr (Nat.le_refl _) (by omega) fun position above below => ?_
    split
    · rfl
    · have atEnd : position = start + first.length := by omega
      rw [atEnd, isMiddle, isMiddle']
  · refine fits'.congr (by omega) (by omega) fun position above below => ?_
    exact if_neg (by omega)

/-- A branch over a segment that keeps the height. -/
theorem skip
    (inner : Raises (start + 1) body high high) :
    Raises start (⟨1, 0, .branch (start + 1 + body.length)⟩ :: body) (high + 1) high := by
  obtain ⟨height, isLow, isHigh, fits⟩ := inner
  have length_eq : (⟨1, 0, .branch (start + 1 + body.length)⟩ :: body : List Shape).length =
      1 + body.length := by rw [List.length_cons, Nat.add_comm]
  refine ⟨fun position => if position = start then high + 1 else height position,
    if_pos rfl, ?_, ?_⟩
  · dsimp only
    rw [length_eq, if_neg (by omega), ← Nat.add_assoc, isHigh]
  · rw [length_eq]
    refine fits_cons.mpr ⟨⟨?_, ?_⟩, ?_⟩
    · rw [if_pos rfl]
      exact Nat.le_add_left 1 high
    · intro target isTarget
      rw [Flow.targets, List.mem_pair] at isTarget
      rw [if_pos rfl, if_neg (by omega)]
      rcases isTarget with rfl | rfl
      · exact ⟨by omega, by omega, isHigh⟩
      · exact ⟨by omega, by omega, isLow⟩
    · refine fits.congr (by omega) (by omega) fun position above below => ?_
      exact if_neg (by omega)

/-- A choice between two segments: a branch to the second one, and a jump over it
after the first. -/
theorem choice
    (former : Raises (start + 1) first low high)
    (latter : Raises (start + 1 + first.length + 1) second low high) :
    Raises start
      (⟨1, 0, .branch (start + 1 + first.length + 1)⟩ :: (first ++
        ⟨0, 0, .jump (start + 1 + first.length + 1 + second.length)⟩ :: second))
      (low + 1) high := by
  obtain ⟨height, isLow, isHigh, fits⟩ := former
  obtain ⟨height', isLow', isHigh', fits'⟩ := latter
  have length_eq : (⟨1, 0, .branch (start + 1 + first.length + 1)⟩ :: (first ++
      ⟨0, 0, .jump (start + 1 + first.length + 1 + second.length)⟩ :: second) :
        List Shape).length = 1 + first.length + 1 + second.length := by
    rw [List.length_cons, List.length_append, List.length_cons]
    omega
  refine ⟨fun position => if position = start then low + 1
    else if position ≤ start + 1 + first.length then height position else height' position,
    if_pos rfl, ?_, ?_⟩
  · dsimp only
    rw [length_eq, if_neg (by omega), if_neg (by omega), ← isHigh']
    exact congrArg height' (by omega)
  · rw [length_eq]
    refine fits_cons.mpr ⟨⟨?_, ?_⟩,
      fits_append.mpr ⟨?_, fits_cons.mpr ⟨⟨Nat.zero_le _, ?_⟩, ?_⟩⟩⟩
    · rw [if_pos rfl]
      exact Nat.le_add_left 1 low
    · intro target isTarget
      rw [Flow.targets, List.mem_pair] at isTarget
      rcases isTarget with rfl | rfl
      · rw [if_pos rfl, if_neg (by omega), if_neg (by omega)]
        exact ⟨by omega, by omega, isLow'⟩
      · rw [if_pos rfl, if_neg (by omega), if_pos (by omega)]
        exact ⟨by omega, by omega, isLow⟩
    · refine fits.congr (by omega) (by omega) fun position above below => ?_
      rw [if_neg (by omega), if_pos below]
    · intro target isTarget
      rw [Flow.targets, List.mem_singleton] at isTarget
      subst isTarget
      rw [if_neg (by omega), if_neg (by omega), if_neg (by omega), if_pos (by omega), isHigh,
        isHigh']
      exact ⟨by omega, by omega, rfl⟩
    · refine fits'.congr (by omega) (by omega) fun position above below => ?_
      rw [if_neg (by omega), if_neg (by omega)]

/-- A segment that keeps the height and is repeated for ever. -/
theorem forever
    (inner : Raises start body low low) :
    Raises start (body ++ [⟨0, 0, .jump start⟩]) low high := by
  obtain ⟨height, isLow, isHigh, fits⟩ := inner
  have length_eq : (body ++ [⟨0, 0, .jump start⟩] : List Shape).length = body.length + 1 := by
    rw [List.length_append, List.length_singleton]
  refine ⟨fun position => if position ≤ start + body.length then height position else high,
    ?_, ?_, ?_⟩
  · dsimp only
    rw [if_pos (by omega), isLow]
  · dsimp only
    rw [length_eq, if_neg (by omega)]
  · rw [length_eq]
    refine fits_append.mpr ⟨?_, fits_singleton.mpr ⟨Nat.zero_le _, ?_⟩⟩
    · refine fits.congr (Nat.le_refl _) (by omega) fun position above below => ?_
      exact if_pos below
    · intro target isTarget
      rw [Flow.targets, List.mem_singleton] at isTarget
      subst isTarget
      rw [if_pos (by omega), if_pos (by omega), isLow, isHigh]
      exact ⟨by omega, by omega, rfl⟩

/-- A loop: a condition, a branch over the body to the end, and a jump back. -/
theorem loop
    (condition : Raises start first low (low + 1))
    (inner : Raises (start + first.length + 1) body low low) :
    Raises start
      (first ++ ⟨1, 0, .branch (start + first.length + 1 + body.length + 1)⟩ ::
        (body ++ [⟨0, 0, .jump start⟩]))
      low low := by
  obtain ⟨height, isLow, isHigh, fits⟩ := condition
  obtain ⟨height', isLow', isHigh', fits'⟩ := inner
  have length_eq : (first ++
      ⟨1, 0, .branch (start + first.length + 1 + body.length + 1)⟩ ::
        (body ++ [⟨0, 0, .jump start⟩]) : List Shape).length =
      first.length + 1 + body.length + 1 := by
    rw [List.length_append, List.length_cons, List.length_append, List.length_singleton]
    omega
  refine ⟨fun position => if position ≤ start + first.length then height position
    else if position ≤ start + first.length + 1 + body.length then height' position else low,
    ?_, ?_, ?_⟩
  · dsimp only
    rw [if_pos (by omega), isLow]
  · dsimp only
    rw [length_eq, if_neg (by omega), if_neg (by omega)]
  · rw [length_eq]
    refine fits_append.mpr ⟨?_, fits_cons.mpr
      ⟨⟨?_, ?_⟩, fits_append.mpr ⟨?_, fits_singleton.mpr ⟨Nat.zero_le _, ?_⟩⟩⟩⟩
    · refine fits.congr (Nat.le_refl _) (by omega) fun position above below => ?_
      exact if_pos below
    · rw [if_pos (by omega), isHigh]
      exact Nat.le_add_left 1 low
    · intro target isTarget
      rw [Flow.targets, List.mem_pair] at isTarget
      rw [if_pos (Nat.le_refl (start + first.length)), isHigh]
      rcases isTarget with rfl | rfl
      · rw [if_neg (by omega), if_neg (by omega)]
        exact ⟨by omega, by omega, rfl⟩
      · rw [if_neg (by omega), if_pos (by omega), isLow']
        exact ⟨by omega, by omega, rfl⟩
    · refine fits'.congr (by omega) (by omega) fun position above below => ?_
      rw [if_neg (by omega), if_pos below]
    · intro target isTarget
      rw [Flow.targets, List.mem_singleton] at isTarget
      subst isTarget
      rw [if_pos (by omega), if_neg (by omega), if_pos (by omega), isLow, isHigh']
      exact ⟨by omega, by omega, rfl⟩

end Raises

/-! ## Machines that follow the code -/

/-- A step from one position and stack height to another that follows the code. -/
def Follows (code : List Shape) (position size position' size' : ℕ) : Prop :=
  ∃ shape, code[position]? = some shape ∧ position' ∈ shape.flow.targets position ∧
    size' = size - shape.pops + shape.pushes

/-- A machine that follows the code stays at the heights of the positions. -/
theorem Fits.follows
    {code : List Shape} {height : ℕ → ℕ} (fits : Fits 0 code.length 0 code height)
    {position size position' size' : ℕ} (isHeight : size = height position)
    (step : Follows code position size position' size') :
    position' ≤ code.length ∧ size' = height position' := by
  obtain ⟨shape, isShape, isTarget, isSize⟩ := step
  obtain ⟨-, continues⟩ := fits position shape isShape
  rw [Nat.zero_add] at continues
  obtain ⟨-, below, after⟩ := continues position' isTarget
  exact ⟨below, by rw [isSize, after, isHeight]⟩

end StackCode
end MuonJs
