import Mathlib

/-!
# Code units

A text is read from units of 16 bits: two units that are the high and the low half of a
pair are one code, every other unit is a code of its own, shown by a function.  A weight
that gives a pair as much as its halves has the same sum over the codes as over the
units, however the pairs lie.
-/

namespace MuonJs
namespace CodeUnits

/-- The first half of a pair. -/
def IsHigh (unit : ℕ) : Prop := 0xD800 ≤ unit ∧ unit < 0xDC00

/-- The second half of a pair. -/
def IsLow (unit : ℕ) : Prop := 0xDC00 ≤ unit ∧ unit < 0xE000

instance (unit : ℕ) : Decidable (IsHigh unit) := inferInstanceAs (Decidable (_ ∧ _))

instance (unit : ℕ) : Decidable (IsLow unit) := inferInstanceAs (Decidable (_ ∧ _))

/-- The code of a pair. -/
def combine (high low : ℕ) : ℕ := 0x10000 + (high - 0xD800) * 0x400 + (low - 0xDC00)

/-- The codes of units; a unit that is in no pair stands for `single` of it. -/
def decode (single : ℕ → ℕ) : List ℕ → List ℕ
  | [] => []
  | [unit] => [single unit]
  | unit :: next :: rest =>
      if IsHigh unit ∧ IsLow next then combine unit next :: decode single rest
      else single unit :: decode single (next :: rest)

/-- Units without a pair. -/
def Unpaired (units : List ℕ) : Prop := units.IsChain fun unit next => ¬(IsHigh unit ∧ IsLow next)

/-- Units without a first half. -/
theorem unpaired_of_not_high {units : List ℕ} (notHigh : ∀ unit ∈ units, ¬IsHigh unit) :
    Unpaired units := by
  rw [Unpaired, List.isChain_iff_forall_rel_of_append_cons_cons]
  rintro unit next before after rfl ⟨isHigh, -⟩
  exact notHigh unit (List.mem_append_right _ List.mem_cons_self) isHigh

theorem le_combine (high low : ℕ) : 0x10000 ≤ combine high low := by
  unfold combine
  omega

section Decode

variable (single : ℕ → ℕ)

/-- A unit that begins no pair. -/
theorem decode_cons {unit : ℕ} (notHigh : ¬IsHigh unit) (rest : List ℕ) :
    decode single (unit :: rest) = single unit :: decode single rest := by
  cases rest with
  | nil => rw [decode, decode]
  | cons next rest => rw [decode, if_neg fun isPair => notHigh isPair.1]

/-- A pair. -/
theorem decode_pair {high low : ℕ} (isHigh : IsHigh high) (isLow : IsLow low) (rest : List ℕ) :
    decode single (high :: low :: rest) = combine high low :: decode single rest := by
  rw [decode, if_pos ⟨isHigh, isLow⟩]

/-- Without pairs every unit is a code. -/
theorem decode_eq_map {units : List ℕ} (unpaired : Unpaired units) :
    decode single units = units.map single := by
  induction units using decode.induct with
  | case1 => rfl
  | case2 unit => rfl
  | case3 unit next rest isPair ih =>
      rw [Unpaired, List.isChain_cons_cons] at unpaired
      exact absurd isPair unpaired.1
  | case4 unit next rest notPair ih =>
      rw [Unpaired, List.isChain_cons_cons] at unpaired
      rw [decode, if_neg notPair, ih unpaired.2]
      rfl

/-- A pair has a code of more than 16 bits. -/
theorem unpaired_of_decode {units : List ℕ}
    (small : ∀ code ∈ decode single units, code < 0x10000) : Unpaired units := by
  induction units using decode.induct with
  | case1 => exact .nil
  | case2 unit => exact .singleton unit
  | case3 unit next rest isPair ih =>
      have isCode : combine unit next ∈ decode single (unit :: next :: rest) :=
        (decode_pair single isPair.1 isPair.2 rest).symm ▸ List.mem_cons_self
      have isLarge := le_combine unit next
      have isSmall := small _ isCode
      exact absurd isSmall (not_lt.mpr isLarge)
  | case4 unit next rest notPair ih =>
      rw [Unpaired, List.isChain_cons_cons]
      refine ⟨notPair, ih fun code isCode => small code ?_⟩
      rw [decode, if_neg notPair]
      exact List.mem_cons_of_mem _ isCode

/-- A weight that gives a pair as much as its halves. -/
theorem sum_decode {weight : ℕ → ℕ}
    (additive : ∀ high low, IsHigh high → IsLow low →
      weight (combine high low) = weight (single high) + weight (single low))
    (units : List ℕ) :
    ((decode single units).map weight).sum = (units.map fun unit => weight (single unit)).sum := by
  induction units using decode.induct with
  | case1 => rfl
  | case2 unit => rfl
  | case3 unit next rest isPair ih =>
      rw [decode, if_pos isPair, List.map_cons, List.sum_cons, ih, additive unit next isPair.1 isPair.2,
        List.map_cons, List.map_cons, List.sum_cons, List.sum_cons, Nat.add_assoc]
  | case4 unit next rest notPair ih =>
      rw [decode, if_neg notPair, List.map_cons, List.sum_cons, ih]
      rfl

end Decode

/-! ## Sums that meet -/

/-- Sums that meet, though one is nowhere less, meet everywhere. -/
theorem eq_of_sum_le {α : Type*} {left right : α → ℕ} {items : List α}
    (nowhereLess : ∀ item ∈ items, left item ≤ right item)
    (meet : (items.map right).sum ≤ (items.map left).sum) :
    ∀ item ∈ items, left item = right item := by
  induction items with
  | nil => exact List.forall_mem_nil _
  | cons item rest ih =>
      rw [List.forall_mem_cons] at nowhereLess
      rw [List.map_cons, List.map_cons, List.sum_cons, List.sum_cons] at meet
      have isRest : (rest.map left).sum ≤ (rest.map right).sum := List.sum_le_sum nowhereLess.2
      rw [List.forall_mem_cons]
      exact ⟨by omega, ih nowhereLess.2 (by omega)⟩

end CodeUnits
end MuonJs
