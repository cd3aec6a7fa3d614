import MuonJs.Cache.Bytes

/-!
# Glob patterns

The pattern matcher of `KEYS` and `SCAN`, with the source's positions into text
and pattern and its single point to go back to.  Both loops terminate: the
class loop moves forward, and the matcher either moves forward in the pattern or
gives the last star one more byte.
-/

namespace MuonJs
namespace Cache
namespace Glob

/-- Byte at a position of the pattern or text. -/
def byteAt (bytes : Bytes) (index : Nat) : UInt8 := bytes.getD index 0

/-- Position of the byte itself after a backslash that quotes it. -/
def unquoted (pattern : Bytes) (i : Nat) : Nat :=
  if byteAt pattern i = 92 ∧ i + 1 < pattern.length then i + 1 else i

theorem le_unquoted (pattern : Bytes) (i : Nat) : i ≤ unquoted pattern i := by
  unfold unquoted
  split <;> omega

/-- Whether a class item at the position is a range such as `a-z`. -/
def isRange (pattern : Bytes) (i : Nat) : Bool :=
  i + 2 < pattern.length ∧ byteAt pattern (i + 1) = 45 ∧
    byteAt pattern (i + 2) ≠ 93

/-- Upper end of the range at the position.  A quoted end is read behind its
backslash, yet the loop then goes on at that byte, as the source does. -/
def rangeEnd (pattern : Bytes) (i : Nat) : UInt8 :=
  if byteAt pattern (i + 2) = 92 ∧ i + 3 < pattern.length then
    byteAt pattern (i + 3)
  else byteAt pattern (i + 2)

/-- The loop of `glob_class_match`: whether `ch` is in the class, and the
position after the closing bracket. -/
def classLoop (pattern : Bytes) (ch : UInt8) (neg : Bool) (start : Nat)
    (matched : Bool) (i : Nat) : Option (Bool × Nat) :=
  if i < pattern.length then
    if byteAt pattern i = 93 ∧ start < i then
      some (if neg then !matched else matched, i + 1)
    else if isRange pattern (unquoted pattern i) then
      classLoop pattern ch neg start
        (matched ||
          (byteAt pattern (unquoted pattern i) ≤ ch &&
            ch ≤ rangeEnd pattern (unquoted pattern i)))
        (unquoted pattern i + 3)
    else
      classLoop pattern ch neg start
        (matched || byteAt pattern (unquoted pattern i) == ch)
        (unquoted pattern i + 1)
  else none
termination_by pattern.length - i
decreasing_by
  all_goals
    have forward := le_unquoted pattern i
    omega

/-- `Shard::glob_class_match`. -/
def classMatch (pattern : Bytes) (i : Nat) (ch : UInt8) : Option (Bool × Nat) :=
  if pattern.length ≤ i then none
  else
    let neg := byteAt pattern i = 94 ∨ byteAt pattern i = 33
    let start := if neg then i + 1 else i
    classLoop pattern ch neg start false start

/-- What one iteration of the matcher does before it may go back to the star:
move on to new positions, return an answer, or report a mismatch. -/
inductive Move
  | star
  | advance (step next : Nat)
  | answer (result : Bool)
  | mismatch

/-- The body of the matcher at one pair of positions. -/
def move (text pattern : Bytes) (ti pi : Nat) : Move :=
  if pi < pattern.length then
    if byteAt pattern pi = 42 then .star
    else if byteAt pattern pi = 63 then
      if text.length ≤ ti then .answer false else .advance 1 (pi + 1)
    else if byteAt pattern pi = 91 then
      if text.length ≤ ti then .answer false
      else
        match classMatch pattern (pi + 1) (byteAt text ti) with
        | some (ok, nextPi) => if ok then .advance 1 nextPi else .mismatch
        | none =>
            if byteAt text ti = 91 then .advance 1 (pi + 1) else .mismatch
    else
      if ti < text.length ∧
          byteAt pattern (unquoted pattern pi) = byteAt text ti then
        .advance 1 (unquoted pattern pi + 1)
      else .mismatch
  else if ti = text.length then .answer true
  else .mismatch

/-- A matched class ends after the position it was searched from. -/
theorem classLoop_gt
    {pattern : Bytes} {ch : UInt8} {neg : Bool} {start : Nat}
    {matched : Bool} {i next : Nat} {ok : Bool}
    (found : classLoop pattern ch neg start matched i = some (ok, next)) :
    i < next := by
  induction matched, i using classLoop.induct pattern ch start with
  | case1 matched i inside closes =>
      rw [classLoop, if_pos inside, if_pos closes] at found
      simp only [Option.some.injEq, Prod.mk.injEq] at found
      omega
  | case2 matched i inside stays range ih =>
      rw [classLoop, if_pos inside, if_neg stays, if_pos range] at found
      have after := ih found
      have forward := le_unquoted pattern i
      omega
  | case3 matched i inside stays noRange ih =>
      rw [classLoop, if_pos inside, if_neg stays, if_neg noRange] at found
      have after := ih found
      have forward := le_unquoted pattern i
      omega
  | case4 matched i outside =>
      rw [classLoop, if_neg outside] at found
      cases found

/-- A move forward goes forward in the pattern. -/
theorem move_advance
    {text pattern : Bytes} {ti pi step next : Nat}
    (moves : move text pattern ti pi = .advance step next) :
    pi < next ∧ pi < pattern.length := by
  unfold move at moves
  split at moves
  case isFalse => split at moves <;> cases moves
  case isTrue inside =>
    refine ⟨?_, inside⟩
    split at moves
    · cases moves
    · split at moves
      · split at moves <;> cases moves
        omega
      · split at moves
        · split at moves
          · cases moves
          · split at moves
            · rename_i ok nextPi found
              split at moves <;> cases moves
              unfold classMatch at found
              split at found
              · cases found
              · have after := classLoop_gt found
                split at after <;> omega
            · split at moves <;> cases moves
              omega
        · have forward := le_unquoted pattern pi
          split at moves <;> cases moves
          omega

/-- A star is met inside the pattern. -/
theorem move_star
    {text pattern : Bytes} {ti pi : Nat}
    (moves : move text pattern ti pi = .star) :
    pi < pattern.length := by
  unfold move at moves
  split at moves
  · assumption
  · split at moves <;> cases moves

/-- The loop of `glob_match`.  `star` is the position after the last star met
and `starTi` the text position it was tried at. -/
def matchLoop (text pattern : Bytes) (star : Option Nat) (starTi : Nat)
    (ti pi : Nat) (behind : starTi ≤ ti) : Bool :=
  if ti ≤ text.length then
    match moves : move text pattern ti pi with
    | .star =>
        matchLoop text pattern (some (pi + 1)) ti ti (pi + 1) (le_refl ti)
    | .advance step next =>
        matchLoop text pattern star starTi (ti + step) next (by omega)
    | .answer result => result
    | .mismatch =>
        match star with
        | some after =>
            matchLoop text pattern star (starTi + 1) (starTi + 1) after (le_refl _)
        | none => false
  else (pattern.drop pi).all (· == 42) && ti == text.length
termination_by (text.length + 1 - starTi, pattern.length - pi)
decreasing_by
  · have inside := move_star moves
    rw [Prod.lex_def]
    simp only
    omega
  · have forward := move_advance moves
    exact Prod.Lex.right _ (by omega)
  · rw [Prod.lex_def]
    simp only
    omega

/-- `Shard::glob_match`. -/
def globMatch (text pattern : Bytes) : Bool :=
  matchLoop text pattern none 0 0 0 (le_refl 0)

end Glob
end Cache
end MuonJs
