import Mathlib

/-!
# Numerals

The digits of a number from the first on, without leading zeros, and the text of an
integer: an optional sign and the symbols of its digits.  A number has one numeral and an
integer one text.  Digits are found from the last on, so a loop that writes them fills a
buffer from the back.
-/

namespace MuonJs
namespace Numerals

variable {α : Type*}

/-- The digits of a number in a radix, the first one first. -/
structure IsNumeral (radix : ℕ) (digits : List ℕ) (number : ℕ) : Prop where
  nonempty : digits ≠ []
  below : ∀ digit ∈ digits, digit < radix
  noLeadingZero : digits.head? = some 0 → digits = [0]
  value : Nat.ofDigits radix digits.reverse = number

/-- The digits that a number is written with. -/
def numeral (radix number : ℕ) : List ℕ :=
  if number = 0 then [0] else (Nat.digits radix number).reverse

/-- The text of an integer: a sign when it is negative, and the symbols of its digits. -/
def IsText (radix : ℕ) (symbol : ℕ → α) (minus : α) (text : List α) (number : ℤ) : Prop :=
  ∃ digits, IsNumeral radix digits number.natAbs ∧
    text = (if number < 0 then [minus] else []) ++ digits.map symbol

theorem isNumeral_numeral {radix : ℕ} (big : 1 < radix) (number : ℕ) :
    IsNumeral radix (numeral radix number) number := by
  by_cases isZero : number = 0
  · rw [numeral, if_pos isZero, isZero]
    refine ⟨List.cons_ne_nil _ _, ?_, fun _ => rfl, Nat.ofDigits_singleton⟩
    intro digit isDigit
    rw [List.mem_singleton.mp isDigit]
    exact Nat.zero_lt_of_lt big
  · rw [numeral, if_neg isZero]
    have nonempty : Nat.digits radix number ≠ [] := Nat.digits_ne_nil_iff_ne_zero.mpr isZero
    refine ⟨List.reverse_eq_nil_iff.not.mpr nonempty, ?_, ?_, ?_⟩
    · intro digit isDigit
      exact Nat.digits_lt_base big (List.mem_reverse.mp isDigit)
    · intro isLeading
      rw [List.head?_reverse, List.getLast?_eq_some_getLast nonempty] at isLeading
      exact absurd (Option.some.inj isLeading) (Nat.getLast_digit_ne_zero radix isZero)
    · rw [List.reverse_reverse, Nat.ofDigits_digits]

/-- A number has one numeral. -/
theorem IsNumeral.eq_numeral {radix number : ℕ} {digits : List ℕ} (big : 1 < radix)
    (isNumeral : IsNumeral radix digits number) : digits = numeral radix number := by
  obtain ⟨nonempty, below, noLeadingZero, value⟩ := isNumeral
  by_cases isLeading : digits.head? = some 0
  · rw [noLeadingZero isLeading] at value ⊢
    rw [List.reverse_singleton, Nat.ofDigits_singleton] at value
    rw [numeral, if_pos value.symm]
  · have digitsOf := Nat.digits_ofDigits radix big digits.reverse
      (fun digit isDigit => below digit (List.mem_reverse.mp isDigit)) (by
        intro notNil isZero
        apply isLeading
        rw [← List.getLast?_reverse, List.getLast?_eq_some_getLast notNil, isZero])
    rw [value] at digitsOf
    have isPositive : number ≠ 0 := by
      intro isZero
      rw [isZero, Nat.digits_zero] at digitsOf
      exact nonempty (List.reverse_eq_nil_iff.mp digitsOf.symm)
    rw [numeral, if_neg isPositive, digitsOf, List.reverse_reverse]

/-- An integer has one text. -/
theorem IsText.unique {radix : ℕ} {symbol : ℕ → α} {minus : α} {left right : List α} {number : ℤ}
    (big : 1 < radix) (isLeft : IsText radix symbol minus left number)
    (isRight : IsText radix symbol minus right number) : left = right := by
  obtain ⟨leftDigits, leftNumeral, rfl⟩ := isLeft
  obtain ⟨rightDigits, rightNumeral, rfl⟩ := isRight
  rw [leftNumeral.eq_numeral big, rightNumeral.eq_numeral big]

/-- Symbols that agree on the digits write the same texts. -/
theorem IsText.congr {radix : ℕ} {symbol other : ℕ → α} {minus : α} {text : List α} {number : ℤ}
    (agree : ∀ digit < radix, symbol digit = other digit)
    (isText : IsText radix symbol minus text number) : IsText radix other minus text number := by
  obtain ⟨digits, isNumeral, rfl⟩ := isText
  refine ⟨digits, isNumeral, ?_⟩
  rw [List.map_congr_left fun digit isDigit => agree digit (isNumeral.below digit isDigit)]

/-! ## Digits from the last on -/

/-- Write one item of a buffer; there is no result where the index is out of range. -/
def writeAt (buf : List α) (idx : ℕ) (item : α) : Option (List α) :=
  if idx < buf.length then some (buf.set idx item) else none

/-- Write the digits of a number before an index, the last one first, and return the buffer
with the index of the first. -/
def fillBack (radix : ℕ) (symbol : ℕ → α) : ℕ → ℕ → List α → Option (List α × ℕ)
  | 0, number, buf => if number = 0 then some (buf, 0) else none
  | idx + 1, number, buf =>
      if number = 0 then some (buf, idx + 1)
      else (writeAt buf idx (symbol (number % radix))).bind
        (fillBack radix symbol idx (number / radix))

theorem writeAt_append (front : List α) (old item : α) (back : List α) :
    writeAt (front ++ old :: back) front.length item = some (front ++ item :: back) := by
  rw [writeAt, if_pos (by simp), List.set_append_right _ _ (Nat.le_refl _), Nat.sub_self,
    List.set_cons_zero]

/-- The digits stand behind what is left of the buffer's front. -/
theorem fillBack_eq {radix : ℕ} (big : 1 < radix) (symbol : ℕ → α) (front back : List α)
    {number : ℕ} (room : (Nat.digits radix number).length ≤ front.length) :
    fillBack radix symbol front.length number (front ++ back) =
      some (front.take (front.length - (Nat.digits radix number).length) ++
          ((Nat.digits radix number).reverse.map symbol ++ back),
        front.length - (Nat.digits radix number).length) := by
  induction front using List.reverseRecOn generalizing number back with
  | nil =>
      have isZero : number = 0 := by
        rw [List.length_nil, Nat.le_zero, List.length_eq_zero_iff,
          Nat.digits_eq_nil_iff_eq_zero] at room
        exact room
      rw [isZero]
      simp [fillBack]
  | append_singleton front old ih =>
      have isLength : (front ++ [old]).length = front.length + 1 := List.length_append
      rw [isLength] at room ⊢
      by_cases isZero : number = 0
      · have isWhole : (front ++ [old]).take (front.length + 1) = front ++ [old] :=
          List.take_of_length_le isLength.le
        rw [isZero, fillBack, if_pos rfl, Nat.digits_zero, List.length_nil, Nat.sub_zero, isWhole]
        rfl
      · have isDigits := Nat.digits_def' big (Nat.pos_of_ne_zero isZero)
        rw [isDigits, List.length_cons] at room ⊢
        rw [fillBack, if_neg isZero, List.append_assoc, List.singleton_append, writeAt_append,
          Option.bind_some, ih _ (by omega), Nat.add_sub_add_right,
          List.take_append_of_le_length (by omega), List.reverse_cons, List.map_append,
          List.map_singleton, List.append_assoc (List.map _ _), List.singleton_append]

end Numerals
end MuonJs
