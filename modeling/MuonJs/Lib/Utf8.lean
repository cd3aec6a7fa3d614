import MuonJs.Cache.StreamQueries

/-!
# Texts as bytes

Bytes are a text when they are the encodings of characters one behind the other.  An
ASCII character is one byte, and in any other all bytes have the high bit.
-/

namespace MuonJs
namespace Cache

/-- The bytes of characters. -/
def encode (chars : List Char) : Bytes := chars.flatMap String.utf8EncodeChar

/-- The bytes are a text. -/
def IsUtf8 (bytes : Bytes) : Prop := ∃ chars, bytes = encode chars

@[simp] theorem encode_nil : encode [] = [] := rfl

@[simp] theorem encode_cons (char : Char) (chars : List Char) :
    encode (char :: chars) = String.utf8EncodeChar char ++ encode chars := rfl

@[simp] theorem encode_append (left right : List Char) :
    encode (left ++ right) = encode left ++ encode right :=
  List.flatMap_append

theorem asBytes_ofList (chars : List Char) : asBytes (String.ofList chars) = encode chars := by
  rw [asBytes_eq_flatMap, String.toList_ofList, encode]

theorem fromUtf8_encode (chars : List Char) :
    fromUtf8 (encode chars) = some (String.ofList chars) := by
  rw [← asBytes_ofList, fromUtf8_asBytes]

theorem eq_encode_of_fromUtf8 {bytes : Bytes} {text : String}
    (decoded : fromUtf8 bytes = some text) : bytes = encode text.toList := by
  rw [← asBytes_of_fromUtf8 decoded, asBytes_eq_flatMap, encode]

theorem isSome_fromUtf8_iff (bytes : Bytes) : (fromUtf8 bytes).isSome = true ↔ IsUtf8 bytes := by
  constructor
  · intro valid
    obtain ⟨text, decoded⟩ := Option.isSome_iff_exists.mp valid
    exact ⟨text.toList, eq_encode_of_fromUtf8 decoded⟩
  · rintro ⟨chars, rfl⟩
    rw [fromUtf8_encode]
    rfl

theorem encode_injective : Function.Injective encode := by
  intro left right same
  have decoded := congrArg fromUtf8 same
  rw [fromUtf8_encode, fromUtf8_encode] at decoded
  exact String.ofList_injective (Option.some.inj decoded)

/-- An ASCII character is one byte. -/
theorem utf8EncodeChar_of_lt {char : Char} (ascii : char.toNat < 128) :
    String.utf8EncodeChar char = [UInt8.ofNat char.toNat] := by
  rw [String.utf8EncodeChar]
  exact if_pos (Nat.le_of_lt_succ ascii)

/-- The bytes of any other character are not ASCII. -/
theorem le_of_mem_utf8EncodeChar {char : Char} (notAscii : 128 ≤ char.toNat) {byte : UInt8}
    (isByte : byte ∈ String.utf8EncodeChar char) : 128 ≤ byte.toNat := by
  have high (bits offset : ℕ) (least : 128 ≤ offset) (fits : bits + offset < 256)
      (isByte : byte = UInt8.ofNat (bits + offset)) : 128 ≤ byte.toNat := by
    rw [isByte, toNat_byte fits]
    omega
  unfold String.utf8EncodeChar at isByte
  have notSmall : ¬char.val.toNat ≤ 0x7f := by
    change 128 ≤ char.val.toNat at notAscii
    omega
  dsimp only at isByte
  rw [if_neg notSmall] at isByte
  split at isByte
  · simp only [List.mem_cons, List.not_mem_nil, or_false] at isByte
    obtain isByte | isByte := isByte
    · exact high _ _ (by decide) (by omega) isByte
    · exact high _ _ (by decide) (by omega) isByte
  split at isByte
  · simp only [List.mem_cons, List.not_mem_nil, or_false] at isByte
    obtain isByte | isByte | isByte := isByte
    · exact high _ _ (by decide) (by omega) isByte
    · exact high _ _ (by decide) (by omega) isByte
    · exact high _ _ (by decide) (by omega) isByte
  · simp only [List.mem_cons, List.not_mem_nil, or_false] at isByte
    obtain isByte | isByte | isByte | isByte := isByte
    · exact high _ _ (by decide) (by omega) isByte
    · exact high _ _ (by decide) (by omega) isByte
    · exact high _ _ (by decide) (by omega) isByte
    · exact high _ _ (by decide) (by omega) isByte

/-- A character is an ASCII byte, or bytes that are not ASCII. -/
theorem utf8EncodeChar_cases (char : Char) :
    (∃ byte : UInt8, byte.toNat < 128 ∧ String.utf8EncodeChar char = [byte]) ∨
      String.utf8EncodeChar char ≠ [] ∧
        ∀ byte ∈ String.utf8EncodeChar char, 128 ≤ byte.toNat := by
  by_cases ascii : char.toNat < 128
  · exact .inl ⟨_, by rw [toNat_byte (by omega)]; exact ascii, utf8EncodeChar_of_lt ascii⟩
  · exact .inr ⟨String.utf8EncodeChar_ne_nil,
      fun _ isByte => le_of_mem_utf8EncodeChar (Nat.le_of_not_lt ascii) isByte⟩

theorem isUtf8_nil : IsUtf8 [] := ⟨[], rfl⟩

theorem IsUtf8.append {left right : Bytes} (isLeft : IsUtf8 left) (isRight : IsUtf8 right) :
    IsUtf8 (left ++ right) := by
  obtain ⟨leftChars, rfl⟩ := isLeft
  obtain ⟨rightChars, rfl⟩ := isRight
  exact ⟨leftChars ++ rightChars, (encode_append _ _).symm⟩

/-- A text can be cut at an ASCII byte. -/
theorem IsUtf8.split {left right : Bytes} {byte : UInt8} (isText : IsUtf8 (left ++ byte :: right))
    (ascii : byte.toNat < 128) : IsUtf8 left ∧ IsUtf8 right := by
  obtain ⟨chars, same⟩ := isText
  induction chars generalizing left with
  | nil => exact absurd same (by simp)
  | cons char chars hypothesis =>
      rw [encode_cons] at same
      obtain ⟨first, -, isFirst⟩ | ⟨-, isHigh⟩ := utf8EncodeChar_cases char
      · rw [isFirst] at same
        cases left with
        | nil => exact ⟨isUtf8_nil, chars, (List.cons.inj same).2⟩
        | cons _ left =>
            obtain ⟨isLeft, isRight⟩ := hypothesis (List.cons.inj same).2
            refine ⟨?_, isRight⟩
            have isChar : IsUtf8 (String.utf8EncodeChar char) := ⟨[char], by simp⟩
            rw [isFirst] at isChar
            rw [(List.cons.inj same).1]
            exact isChar.append isLeft
      · obtain ⟨middle, isLeft, isRest⟩ | ⟨middle, isChar, isRest⟩ :=
          List.append_eq_append_iff.mp same
        · cases middle with
          | nil =>
              rw [List.append_nil] at isLeft
              obtain ⟨-, isRight⟩ := @hypothesis [] isRest
              exact ⟨⟨[char], by simp [isLeft]⟩, isRight⟩
          | cons _ middle =>
              refine absurd (isHigh byte ?_) (Nat.not_le_of_lt ascii)
              rw [isLeft, (List.cons.inj isRest).1]
              exact List.mem_append_right _ List.mem_cons_self
        · obtain ⟨isLeft, isRight⟩ := hypothesis isRest.symm
          rw [isChar]
          exact ⟨IsUtf8.append ⟨[char], by simp⟩ isLeft, isRight⟩

theorem isUtf8_ascii {bytes : Bytes} (ascii : ∀ byte ∈ bytes, byte.toNat < 128) :
    IsUtf8 bytes := by
  obtain ⟨text, decoded, -⟩ := fromUtf8_ascii ascii
  exact ⟨text.toList, eq_encode_of_fromUtf8 decoded⟩

end Cache
end MuonJs
