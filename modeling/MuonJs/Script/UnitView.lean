import MuonJs.Lib.Utf8
import MuonJs.Script.Equality

/-!
# Texts as code units

`string_utf16_units` reads a text as units and
`utf16_units_to_string_preserve_surrogates` writes units as a text.  Surrogates are
written as the private characters from `0xE000` to `0xE7FF`, one each.  So the way
back is exact for the units that are not private themselves, and for the texts
without private characters and without characters that need two units.
-/

namespace MuonJs
namespace Script

open Cache

/-- `char::from_u32`. -/
def fromU32 (code : ℕ) : Option Char :=
  if code.isValidChar then some (Char.ofNat code) else none

/-- A unit that is half of a character. -/
def IsSurrogate (unit : ℕ) : Prop := 0xD800 ≤ unit ∧ unit ≤ 0xDFFF

/-- A code that stands for a surrogate. -/
def IsPrivate (code : ℕ) : Prop := 0xE000 ≤ code ∧ code ≤ 0xE7FF

instance (unit : ℕ) : Decidable (IsSurrogate unit) := inferInstanceAs (Decidable (_ ∧ _))

instance (code : ℕ) : Decidable (IsPrivate code) := inferInstanceAs (Decidable (_ ∧ _))

/-- The character that is written for a unit. -/
def charOfUnit (unit : UInt16) : Option Char :=
  if IsSurrogate unit.toNat then fromU32 (unit.toNat + 0x800) else fromU32 unit.toNat

/-- `utf16_units_to_string_preserve_surrogates`. -/
def utf16UnitsToString (units : List UInt16) : String :=
  String.ofList (units.filterMap charOfUnit)

/-- The units of a text by the standard. -/
def utf16 (text : String) : List UInt16 := text.toList.flatMap fun char => encodeUtf16 char.toNat

/-! ## One unit -/

theorem toNat_unit {number : ℕ} (fits : number < 0x10000) :
    (UInt16.ofNat number).toNat = number :=
  UInt16.toNat_ofNat_of_lt' fits

theorem toNat_char {code : ℕ} (valid : code.isValidChar) : (Char.ofNat code).toNat = code := by
  rw [Char.ofNat, dif_pos valid]
  rfl

/-- The code of the character that is written for a unit. -/
def codeOfUnit (unit : UInt16) : ℕ :=
  if IsSurrogate unit.toNat then unit.toNat + 0x800 else unit.toNat

theorem codeOfUnit_lt (unit : UInt16) : codeOfUnit unit < 0x10000 := by
  have bound := unit.toNat_lt
  rw [codeOfUnit]
  split
  · rename_i isSurrogate
    have := isSurrogate.2
    omega
  · omega

theorem charOfUnit_eq (unit : UInt16) :
    charOfUnit unit = some (Char.ofNat (codeOfUnit unit)) ∧
      (Char.ofNat (codeOfUnit unit)).toNat = codeOfUnit unit := by
  have bound := unit.toNat_lt
  have valid : (codeOfUnit unit).isValidChar := by
    rw [codeOfUnit]
    split
    · rename_i isSurrogate
      obtain ⟨low, high⟩ := isSurrogate
      exact .inr ⟨by omega, by omega⟩
    · rename_i notSurrogate
      rw [IsSurrogate] at notSurrogate
      rw [Nat.isValidChar]
      omega
  refine ⟨?_, toNat_char valid⟩
  rw [codeOfUnit] at valid
  rw [charOfUnit, codeOfUnit]
  split
  · rename_i isSurrogate
    rw [if_pos isSurrogate] at valid
    rw [fromU32, if_pos valid]
  · rename_i notSurrogate
    rw [if_neg notSurrogate] at valid
    rw [fromU32, if_pos valid]

/-- The unit that is read where a unit was written. -/
def readBack (unit : UInt16) : UInt16 :=
  if IsPrivate unit.toNat then UInt16.ofNat (unit.toNat - 0x800) else unit

theorem charUnits_of_private {char : Char} (isPrivate : IsPrivate char.toNat) :
    charUnits char = [UInt16.ofNat (char.toNat - 0x800)] :=
  if_pos isPrivate

theorem charUnits_of_not_private {char : Char} (notPrivate : ¬IsPrivate char.toNat) :
    charUnits char = encodeUtf16 char.toNat :=
  if_neg notPrivate

theorem charUnits_codeOfUnit (unit : UInt16) :
    charUnits (Char.ofNat (codeOfUnit unit)) = [readBack unit] := by
  have isCode := (charOfUnit_eq unit).2
  have bound := unit.toNat_lt
  by_cases isSurrogate : IsSurrogate unit.toNat
  · have code : codeOfUnit unit = unit.toNat + 0x800 := if_pos isSurrogate
    obtain ⟨low, high⟩ := isSurrogate
    have notPrivate : ¬IsPrivate unit.toNat := by
      rw [IsPrivate]
      omega
    rw [charUnits_of_private (by rw [isCode, code]; exact ⟨by omega, by omega⟩), isCode, code,
      Nat.add_sub_cancel, readBack, if_neg notPrivate, UInt16.ofNat_toNat]
  · have code : codeOfUnit unit = unit.toNat := if_neg isSurrogate
    by_cases isPrivate : IsPrivate unit.toNat
    · rw [charUnits_of_private (by rw [isCode, code]; exact isPrivate), isCode, code, readBack,
        if_pos isPrivate]
    · rw [charUnits_of_not_private (by rw [isCode, code]; exact isPrivate), isCode, code,
        encodeUtf16, if_pos (by omega), readBack, if_neg isPrivate, UInt16.ofNat_toNat]

theorem readBack_eq_iff (unit : UInt16) : readBack unit = unit ↔ ¬IsPrivate unit.toNat := by
  rw [readBack]
  split
  · rename_i isPrivate
    obtain ⟨low, high⟩ := isPrivate
    refine iff_of_false ?_ (not_not.mpr ⟨low, high⟩)
    intro same
    have numbers := congrArg UInt16.toNat same
    rw [toNat_unit (by omega)] at numbers
    omega
  · rename_i notPrivate
    exact iff_of_true rfl notPrivate

/-! ## Units, written and read -/

theorem utf16UnitsToString_eq (units : List UInt16) :
    utf16UnitsToString units = String.ofList (units.map fun unit => Char.ofNat (codeOfUnit unit)) := by
  rw [utf16UnitsToString]
  congr 1
  induction units with
  | nil => rfl
  | cons unit units hypothesis =>
      rw [List.filterMap_cons_some (charOfUnit_eq unit).1, hypothesis, List.map_cons]

theorem textUnits_asBytes (text : String) :
    textUnits (asBytes text) = some (text.toList.flatMap charUnits) := by
  rw [textUnits, fromUtf8_asBytes]
  rfl

theorem textUnits_utf16UnitsToString (units : List UInt16) :
    textUnits (asBytes (utf16UnitsToString units)) = some (units.map readBack) := by
  rw [textUnits_asBytes, utf16UnitsToString_eq, String.toList_ofList]
  congr 1
  induction units with
  | nil => rfl
  | cons unit units hypothesis =>
      rw [List.map_cons, List.flatMap_cons, charUnits_codeOfUnit, hypothesis]
      rfl

/-- Units that are written are read again. -/
def UnitsReadBack (units : List UInt16) : Prop :=
  textUnits (asBytes (utf16UnitsToString units)) = some units

theorem unitsReadBack_iff (units : List UInt16) :
    UnitsReadBack units ↔ ∀ unit ∈ units, ¬IsPrivate unit.toNat := by
  rw [UnitsReadBack, textUnits_utf16UnitsToString, Option.some_inj]
  calc units.map readBack = units
      ↔ units.map readBack = units.map id := by rw [List.map_id]
    _ ↔ ∀ unit ∈ units, readBack unit = unit := List.map_inj_left
    _ ↔ ∀ unit ∈ units, ¬IsPrivate unit.toNat :=
        forall₂_congr fun unit _ => readBack_eq_iff unit

/-! ## Texts, read and written -/

/-- A character that takes two units. -/
def IsAstral (char : Char) : Prop := 0x10000 ≤ char.toNat

instance (char : Char) : Decidable (IsAstral char) := inferInstanceAs (Decidable (_ ≤ _))

theorem toNat_lt_of_char (char : Char) : char.toNat < 0x110000 := by
  obtain low | ⟨-, high⟩ := char.valid
  · exact Nat.lt_trans low (by decide)
  · exact high

/-- The units of a character of its own: none is private. -/
theorem not_private_of_mem_charUnits {char : Char} {unit : UInt16}
    (isUnit : unit ∈ charUnits char) : ¬IsPrivate unit.toNat := by
  have bound := toNat_lt_of_char char
  by_cases isPrivate : IsPrivate char.toNat
  · rw [charUnits_of_private isPrivate, List.mem_singleton] at isUnit
    obtain ⟨low, high⟩ := isPrivate
    rw [isUnit, toNat_unit (by omega), IsPrivate]
    omega
  · rw [charUnits_of_not_private isPrivate, encodeUtf16] at isUnit
    split at isUnit
    · rw [List.mem_singleton] at isUnit
      rw [isUnit, toNat_unit (by omega)]
      exact isPrivate
    · simp only [List.mem_cons, List.not_mem_nil, or_false] at isUnit
      obtain rfl | rfl := isUnit
      · rw [toNat_unit (by omega), IsPrivate]
        omega
      · rw [toNat_unit (by omega), IsPrivate]
        omega

/-- A character of one unit is written as it was. -/
theorem codes_charUnits {char : Char} (notAstral : ¬IsAstral char) :
    (charUnits char).map (fun unit => Char.ofNat (codeOfUnit unit)) = [char] := by
  rw [IsAstral, Nat.not_le] at notAstral
  have valid := char.valid
  by_cases isPrivate : IsPrivate char.toNat
  · obtain ⟨low, high⟩ := isPrivate
    have isNumber : (UInt16.ofNat (char.toNat - 0x800)).toNat = char.toNat - 0x800 :=
      toNat_unit (by omega)
    have isSurrogate : IsSurrogate (UInt16.ofNat (char.toNat - 0x800)).toNat := by
      rw [isNumber]
      exact ⟨by omega, by omega⟩
    rw [charUnits_of_private ⟨low, high⟩, List.map_singleton, codeOfUnit, if_pos isSurrogate,
      isNumber, Nat.sub_add_cancel (by omega), Char.ofNat_toNat]
  · have isNumber : (UInt16.ofNat char.toNat).toNat = char.toNat :=
      toNat_unit notAstral
    have notSurrogate : ¬IsSurrogate (UInt16.ofNat char.toNat).toNat := by
      rw [isNumber, IsSurrogate]
      obtain low | ⟨high, -⟩ := valid
      · change char.toNat < 0xd800 at low
        omega
      · change 0xdfff < char.toNat at high
        omega
    rw [charUnits_of_not_private isPrivate, encodeUtf16, if_pos notAstral, List.map_singleton,
      codeOfUnit, if_neg notSurrogate, isNumber, Char.ofNat_toNat]

/-- What is written has no character of two units. -/
theorem not_astral_of_mem {units : List UInt16} {char : Char}
    (isChar : char ∈ (utf16UnitsToString units).toList) : ¬IsAstral char := by
  rw [utf16UnitsToString_eq, String.toList_ofList] at isChar
  obtain ⟨unit, -, rfl⟩ := List.mem_map.mp isChar
  rw [IsAstral, (charOfUnit_eq unit).2, Nat.not_le]
  exact codeOfUnit_lt unit

theorem utf16UnitsToString_textUnits_iff (text : String) :
    utf16UnitsToString (text.toList.flatMap charUnits) = text ↔
      ∀ char ∈ text.toList, ¬IsAstral char := by
  constructor
  · intro same char isChar
    rw [← same] at isChar
    exact not_astral_of_mem isChar
  · intro noAstral
    apply String.toList_injective
    rw [utf16UnitsToString_eq, String.toList_ofList, List.map_flatMap]
    calc text.toList.flatMap (fun char =>
          (charUnits char).map fun unit => Char.ofNat (codeOfUnit unit))
        = text.toList.flatMap (fun char => [char]) :=
          List.flatMap_congr fun char isChar => codes_charUnits (noAstral char isChar)
      _ = text.toList := List.flatMap_singleton' _

theorem utf16UnitsToString_append (left right : List UInt16) :
    utf16UnitsToString (left ++ right) = utf16UnitsToString left ++ utf16UnitsToString right := by
  rw [utf16UnitsToString, List.filterMap_append, String.ofList_append]
  rfl

/-- Texts that are written one behind the other. -/
theorem concat_utf16UnitsToString (pieces : List (List UInt16)) :
    (pieces.map utf16UnitsToString).foldr (· ++ ·) "" = utf16UnitsToString pieces.flatten := by
  induction pieces with
  | nil => rfl
  | cons piece pieces hypothesis =>
      rw [List.map_cons, List.foldr_cons, hypothesis, List.flatten_cons,
        utf16UnitsToString_append]

/-- The units of a text are the standard ones exactly without private characters. -/
theorem charUnits_eq_utf16_iff (text : String) :
    text.toList.flatMap charUnits = utf16 text ↔ ∀ char ∈ text.toList, ¬IsPrivate char.toNat := by
  constructor
  · intro same char isChar isPrivate
    have bound := toNat_lt_of_char char
    have isUnit : UInt16.ofNat char.toNat ∈ utf16 text := by
      refine List.mem_flatMap.mpr ⟨char, isChar, ?_⟩
      rw [encodeUtf16, if_pos (by have := isPrivate.2; omega)]
      exact List.mem_singleton_self _
    rw [← same] at isUnit
    obtain ⟨other, -, isOther⟩ := List.mem_flatMap.mp isUnit
    have notPrivate := not_private_of_mem_charUnits isOther
    rw [toNat_unit (by have := isPrivate.2; omega)] at notPrivate
    exact notPrivate isPrivate
  · intro noPrivate
    exact List.flatMap_congr fun char isChar => charUnits_of_not_private (noPrivate char isChar)

/-! ## Texts without loss -/

/-- A character that is its own unit. -/
def IsPlain (char : Char) : Prop := ¬IsPrivate char.toNat ∧ ¬IsAstral char

/-- The characters that are not plain are those with a surrogate among their units. -/
theorem charUnits_surrogate_iff (char : Char) :
    (∃ unit ∈ charUnits char, IsSurrogate unit.toNat) ↔ ¬IsPlain char := by
  have bound := toNat_lt_of_char char
  by_cases isPrivate : IsPrivate char.toNat
  · obtain ⟨low, high⟩ := isPrivate
    rw [charUnits_of_private ⟨low, high⟩]
    refine iff_of_true ⟨_, List.mem_singleton_self _, ?_⟩ fun isPlain => isPlain.1 ⟨low, high⟩
    rw [toNat_unit (by omega)]
    exact ⟨by omega, by omega⟩
  rw [charUnits_of_not_private isPrivate]
  by_cases isAstral : IsAstral char
  · have large : ¬char.toNat < 0x10000 := Nat.not_lt_of_le isAstral
    rw [encodeUtf16, if_neg large]
    refine iff_of_true ⟨_, List.mem_cons_self, ?_⟩ fun isPlain => isPlain.2 isAstral
    rw [toNat_unit (by omega)]
    exact ⟨by omega, by omega⟩
  · have small : char.toNat < 0x10000 := Nat.lt_of_not_le isAstral
    rw [encodeUtf16, if_pos small]
    refine iff_of_false ?_ (not_not.mpr ⟨isPrivate, isAstral⟩)
    rintro ⟨unit, isUnit, low, high⟩
    rw [List.mem_singleton] at isUnit
    rw [isUnit, toNat_unit small] at low high
    obtain valid | ⟨valid, -⟩ := char.valid
    · change char.toNat < 0xd800 at valid
      omega
    · change 0xdfff < char.toNat at valid
      omega

theorem forall_isPlain_iff (text : String) :
    (∀ char ∈ text.toList, IsPlain char) ↔
      ∀ unit ∈ text.toList.flatMap charUnits, ¬IsSurrogate unit.toNat := by
  constructor
  · intro plain unit isUnit isSurrogate
    obtain ⟨char, isChar, isOfChar⟩ := List.mem_flatMap.mp isUnit
    exact (charUnits_surrogate_iff char).mp ⟨unit, isOfChar, isSurrogate⟩ (plain char isChar)
  · intro noSurrogate char isChar
    by_contra notPlain
    obtain ⟨unit, isUnit, isSurrogate⟩ := (charUnits_surrogate_iff char).mpr notPlain
    exact noSurrogate unit (List.mem_flatMap.mpr ⟨char, isChar, isUnit⟩) isSurrogate

/-- The view of a text as units loses nothing: the units are the standard ones, the text can
be written again from them and from any pieces of them, and no other text has them. -/
structure UnitsLossless (text : String) : Prop where
  standard : textUnits (asBytes text) = some (utf16 text)
  rebuilt : ∀ units, textUnits (asBytes text) = some units → utf16UnitsToString units = text
  pieces : ∀ pieces : List (List UInt16), textUnits (asBytes text) = some pieces.flatten →
    (pieces.map utf16UnitsToString).foldr (· ++ ·) "" = text
  distinct : ∀ other : String, textUnits (asBytes other) = textUnits (asBytes text) →
    other = text

theorem UnitsLossless.isPlain {text : String} (lossless : UnitsLossless text) :
    ∀ char ∈ text.toList, IsPlain char := by
  have standard := lossless.standard
  have rebuilt := lossless.rebuilt _ (textUnits_asBytes text)
  rw [textUnits_asBytes, Option.some_inj, charUnits_eq_utf16_iff] at standard
  rw [utf16UnitsToString_textUnits_iff] at rebuilt
  exact fun char isChar => ⟨standard char isChar, rebuilt char isChar⟩

theorem unitsLossless_of_isPlain {text : String} (plain : ∀ char ∈ text.toList, IsPlain char) :
    UnitsLossless text := by
  have written := (utf16UnitsToString_textUnits_iff text).mpr fun char isChar =>
    (plain char isChar).2
  have rebuilt (units : List UInt16) (isUnits : textUnits (asBytes text) = some units) :
      utf16UnitsToString units = text := by
    rw [textUnits_asBytes] at isUnits
    rw [← Option.some.inj isUnits, written]
  refine ⟨?_, rebuilt, ?_, ?_⟩
  · rw [textUnits_asBytes, (charUnits_eq_utf16_iff text).mpr fun char isChar =>
      (plain char isChar).1]
  · intro pieces isUnits
    rw [concat_utf16UnitsToString, rebuilt _ isUnits]
  · intro other same
    have noSurrogate := (forall_isPlain_iff text).mp plain
    have units := same
    rw [textUnits_asBytes, textUnits_asBytes, Option.some_inj] at units
    rw [← units] at noSurrogate
    have otherPlain := (forall_isPlain_iff other).mpr noSurrogate
    have otherWritten := (utf16UnitsToString_textUnits_iff other).mpr fun char isChar =>
      (otherPlain char isChar).2
    rw [← otherWritten, units, written]

/-- Units come back exactly when none of them is private; a text is viewed without loss
exactly when it has no private characters and none of two units. -/
theorem unitView_iff (units : List UInt16) (text : String) :
    (UnitsReadBack units ↔ ∀ unit ∈ units, ¬IsPrivate unit.toNat) ∧
      (UnitsLossless text ↔ ∀ char ∈ text.toList, IsPlain char) :=
  ⟨unitsReadBack_iff units, UnitsLossless.isPlain, unitsLossless_of_isPlain⟩

/-- A unit from the private range is read as a surrogate, and a character of two units is
written as two private characters. -/
theorem not_always_unitView :
    ¬(∀ units : List UInt16, UnitsReadBack units) ∧ ¬∀ text : String, UnitsLossless text := by
  constructor
  · intro readBack
    have same := readBack [0xE000]
    rw [UnitsReadBack, textUnits_utf16UnitsToString] at same
    exact absurd same (by decide)
  · intro lossless
    have plain := (lossless (String.singleton (Char.ofNat 0x1F600))).isPlain
      (Char.ofNat 0x1F600) (by simp)
    exact absurd plain.2 (by decide)

end Script
end MuonJs
