import MuonJs.Script.Grammar

/-!
# Tokens at the front of the input

What the tests of the compiler come to when the rest of the input spells a list
of tokens.
-/

namespace MuonJs
namespace Script

open Cache (Bytes asBytes isAsciiDigit)

/-! ## White space -/

theorem skipWs_spaces {space : Bytes} (isSpaces : ∀ byte ∈ space, isSpace byte = true)
    (text : Bytes) : skipWs (space ++ text) = skipWs text := by
  induction space with
  | nil => rfl
  | cons byte space ih =>
      have isFirst : isSpace byte = true := isSpaces byte List.mem_cons_self
      rw [skipWs, List.cons_append, List.dropWhile_cons_of_pos (by exact isFirst)]
      exact ih fun other isOther => isSpaces other (List.mem_cons_of_mem _ isOther)

theorem skipWs_of_not_space {byte : UInt8} (notSpace : isSpace byte = false) (text : Bytes) :
    skipWs (byte :: text) = byte :: text := by
  rw [skipWs, List.dropWhile_cons_of_neg]
  rw [Bool.not_eq_true]
  exact notSpace

theorem skipWs_eq_cons {text rest : Bytes} {byte : UInt8} (skipped : skipWs text = byte :: rest) :
    isSpace byte = false := by
  have nonempty : text.dropWhile isSpace ≠ [] := by
    intro isNil
    have same : skipWs text = text.dropWhile isSpace := rfl
    rw [same, isNil] at skipped
    cases skipped
  have isHead := List.head_dropWhile_not isSpace nonempty
  have same : text.dropWhile isSpace = byte :: rest := skipped
  simp only [same, List.head_cons] at isHead
  exact isHead

theorem skipWs_skipWs (text : Bytes) : skipWs (skipWs text) = skipWs text := by
  cases skipped : skipWs text with
  | nil => rfl
  | cons byte rest => exact skipWs_of_not_space (skipWs_eq_cons skipped) rest

/-! ## The first byte of a token -/

theorem not_space_of_ident {byte : UInt8} (isStart : isIdentStart byte = true) :
    isSpace byte = false := by
  simp [isIdentStart, isSpace, UInt8.le_iff_toNat_le, ← UInt8.toNat_inj] at *
  omega

theorem Name.exists_cons (name : Name) :
    ∃ first rest, name.bytes = first :: rest ∧ isIdentStart first = true ∧
      rest.all isIdentByte = true := by
  obtain ⟨bytes, valid⟩ := name
  cases bytes with
  | nil => cases valid
  | cons first rest =>
      have both : isIdentStart first = true ∧ rest.all isIdentByte = true := by
        rw [← Bool.and_eq_true]
        exact valid
      exact ⟨first, rest, rfl, both.1, both.2⟩

theorem not_space_of_digit {byte : UInt8} (isDigit : isAsciiDigit byte = true) :
    isSpace byte = false := by
  simp [isAsciiDigit, isSpace, UInt8.le_iff_toNat_le, ← UInt8.toNat_inj] at *
  omega

/-- A literal starts with a digit or a point. -/
theorem Decimal.exists_cons (literal : Decimal) :
    ∃ first rest, literal.bytes = first :: rest ∧
      (isAsciiDigit first = true ∨ first = 46) := by
  unfold Decimal.bytes
  cases isWhole : literal.whole with
  | nil =>
      obtain notNil | ⟨digits, isFraction, -⟩ := literal.notEmpty
      · exact absurd isWhole notNil
      · rw [isFraction]
        exact ⟨46, _, rfl, .inr rfl⟩
  | cons first rest =>
      have allDigits := literal.wholeDigits
      rw [isWhole, List.all_cons, Bool.and_eq_true] at allDigits
      exact ⟨first, _, rfl, .inl allDigits.1⟩

theorem Token.exists_cons (token : Token) :
    ∃ first rest, token.bytes = first :: rest ∧ isSpace first = false := by
  cases token with
  | ident name =>
      obtain ⟨first, rest, isName, isStart, -⟩ := name.exists_cons
      exact ⟨first, rest, isName, not_space_of_ident isStart⟩
  | number literal =>
      obtain ⟨first, rest, isLiteral, isDigit | rfl⟩ := literal.exists_cons
      · exact ⟨first, rest, isLiteral, not_space_of_digit isDigit⟩
      · exact ⟨46, rest, isLiteral, rfl⟩
  | punct mark => cases mark <;> exact ⟨_, _, rfl, rfl⟩

/-! ## Spelled tokens -/

namespace Spells

variable {token : Token} {tokens : List Token} {text : Bytes}

theorem skipWs_nil (spells : Spells [] text) : skipWs text = [] := by
  cases spells with
  | nil isSpaces =>
      have skipped := skipWs_spaces isSpaces []
      rw [List.append_nil] at skipped
      exact skipped

/-- The first token, and what spells the others. -/
theorem front (spells : Spells (token :: tokens) text) :
    ∃ after, skipWs text = token.bytes ++ after ∧ Spells tokens after ∧
      ∀ byte, after.head? = some byte → token.EndsAt byte := by
  cases spells with
  | cons isSpaces isEnd others =>
      rename_i space after
      obtain ⟨first, rest, isToken, notSpace⟩ := token.exists_cons
      refine ⟨after, ?_, others, isEnd⟩
      rw [List.append_assoc, skipWs_spaces isSpaces, isToken, List.cons_append,
        skipWs_of_not_space notSpace]

/-- White space in front does not matter. -/
theorem skip (spells : Spells tokens text) : Spells tokens (skipWs text) := by
  cases tokens with
  | nil =>
      rw [spells.skipWs_nil]
      exact .nil fun _ isMem => absurd isMem List.not_mem_nil
  | cons token tokens =>
      obtain ⟨after, isFront, others, isEnd⟩ := spells.front
      rw [isFront]
      exact .cons (fun _ isMem => absurd isMem List.not_mem_nil) isEnd others

end Spells

/-! ## Names and numbers -/

theorem takeWhile_append_of_all {test : UInt8 → Bool} {run after : Bytes}
    (isRun : run.all test = true)
    (isEnd : ∀ byte, after.head? = some byte → test byte = false) :
    (run ++ after).takeWhile test = run ∧ (run ++ after).dropWhile test = after := by
  have allRun : ∀ byte ∈ run, test byte = true := List.all_eq_true.mp isRun
  cases after with
  | nil =>
      rw [List.append_nil, List.takeWhile_eq_self_iff, List.dropWhile_eq_nil_iff]
      exact ⟨allRun, allRun⟩
  | cons byte after =>
      have stops : ¬test byte = true := by
        rw [Bool.not_eq_true]
        exact isEnd byte rfl
      rw [List.takeWhile_append_of_pos allRun, List.dropWhile_append_of_pos allRun,
        List.takeWhile_cons_of_neg stops, List.dropWhile_cons_of_neg stops, List.append_nil]
      exact ⟨rfl, rfl⟩

theorem parseIdentifier_name
    {name : Name} {tokens : List Token} {text : Bytes}
    (spells : Spells (.ident name :: tokens) text) :
    ∃ after, parseIdentifier text = some (name.bytes, after) ∧ Spells tokens after := by
  obtain ⟨after, isFront, others, isEnd⟩ := spells.front
  obtain ⟨first, rest, isName, isStart, isRest⟩ := name.exists_cons
  have split := takeWhile_append_of_all isRest isEnd
  refine ⟨after, ?_, others⟩
  have isText : skipWs text = first :: (rest ++ after) := by
    rw [isFront]
    change name.bytes ++ after = _
    rw [isName]
    rfl
  rw [parseIdentifier, isText]
  dsimp only
  rw [if_pos isStart, split.1, split.2, isName]

theorem parseIdentifier_of_not_start {byte : UInt8} {rest text : Bytes}
    (isFront : skipWs text = byte :: rest) (notStart : isIdentStart byte = false) :
    parseIdentifier text = none := by
  rw [parseIdentifier, isFront]
  dsimp only
  rw [notStart]
  rfl

/-- The mantissa that `parse_number` takes. -/
def mantissaText (input : Bytes) : Bytes × Bytes :=
  match input with
  | 46 :: rest => (46 :: rest.takeWhile isAsciiDigit, rest.dropWhile isAsciiDigit)
  | _ =>
      match input.dropWhile isAsciiDigit with
      | 46 :: rest =>
          (input.takeWhile isAsciiDigit ++ 46 :: rest.takeWhile isAsciiDigit,
            rest.dropWhile isAsciiDigit)
      | rest => (input.takeWhile isAsciiDigit, rest)

/-- The sign of an exponent. -/
def signText (rest : Bytes) : Bytes × Bytes :=
  match rest with
  | 43 :: rest => ([43], rest)
  | 45 :: rest => ([45], rest)
  | _ => ([], rest)

/-- The exponent that `parse_number` takes after a mantissa. -/
def exponentText (mantissa rest : Bytes) : Bytes × Bytes :=
  match rest with
  | mark :: rest =>
      if mark = 101 ∨ mark = 69 then
        (mantissa ++ mark :: (signText rest).1 ++ (signText rest).2.takeWhile isAsciiDigit,
          (signText rest).2.dropWhile isAsciiDigit)
      else (mantissa, mark :: rest)
  | [] => (mantissa, [])

theorem numberText_eq (input : Bytes) :
    numberText input = exponentText (mantissaText input).1 (mantissaText input).2 := by
  rfl

theorem mantissaText_literal
    (literal : Decimal) {rest : Bytes}
    (notDigit : ∀ byte, rest.head? = some byte → isAsciiDigit byte = false)
    (notPoint : literal.fraction = none → rest.head? ≠ some 46) :
    mantissaText (literal.whole ++ (literal.fraction.elim [] fun digits => 46 :: digits) ++ rest) =
      (literal.whole ++ literal.fraction.elim [] fun digits => 46 :: digits, rest) := by
  cases isWhole : literal.whole with
  | nil =>
      obtain notNil | ⟨digits, isFraction, -⟩ := literal.notEmpty
      · exact absurd isWhole notNil
      · have split := takeWhile_append_of_all (literal.fractionDigits digits isFraction) notDigit
        rw [isFraction]
        change (46 :: (digits ++ rest).takeWhile isAsciiDigit,
          (digits ++ rest).dropWhile isAsciiDigit) = _
        rw [split.1, split.2]
        rfl
  | cons first others =>
      have allDigits := literal.wholeDigits
      rw [isWhole] at allDigits
      have isDigit : isAsciiDigit first = true := by
        rw [List.all_cons, Bool.and_eq_true] at allDigits
        exact allDigits.1
      unfold mantissaText
      split
      · rename_i isPoint
        cases isPoint
        cases isDigit
      · cases isFraction : literal.fraction with
        | none =>
            have split := takeWhile_append_of_all allDigits notDigit
            rw [Option.elim_none, List.append_nil, split.1, split.2]
            split
            · exact absurd rfl (notPoint isFraction)
            · rfl
        | some digits =>
            have allFraction := literal.fractionDigits digits isFraction
            have splitFraction := takeWhile_append_of_all allFraction notDigit
            have isPoint : ∀ byte, (46 :: digits ++ rest).head? = some byte →
                isAsciiDigit byte = false := by
              rintro _ ⟨⟩
              rfl
            have split := takeWhile_append_of_all allDigits isPoint
            rw [Option.elim_some, List.append_assoc, split.1, split.2]
            change (_ ++ 46 :: (digits ++ rest).takeWhile isAsciiDigit,
              (digits ++ rest).dropWhile isAsciiDigit) = _
            rw [splitFraction.1, splitFraction.2]

theorem signText_digits {digits : Bytes} (notEmpty : digits ≠ [])
    (allDigits : digits.all isAsciiDigit = true) (after : Bytes) :
    signText (digits ++ after) = ([], digits ++ after) := by
  cases digits with
  | nil => exact absurd rfl notEmpty
  | cons first rest =>
      rw [List.all_cons, Bool.and_eq_true] at allDigits
      unfold signText
      split
      · rename_i isSign
        cases isSign
        cases allDigits.1
      · rename_i isSign
        cases isSign
        cases allDigits.1
      · rfl

theorem exponentText_none (mantissa : Bytes) {after : Bytes}
    (isEnd : ∀ byte, after.head? = some byte → isIdentByte byte = false) :
    exponentText mantissa after = (mantissa, after) := by
  cases after with
  | nil => rfl
  | cons mark rest =>
      have notMark : ¬(mark = 101 ∨ mark = 69) := by
        rintro (rfl | rfl) <;> cases isEnd _ rfl
      unfold exponentText
      dsimp only
      rw [if_neg notMark]

theorem exponentText_signed (mantissa : Bytes) {mark : UInt8} {rest sign digits after : Bytes}
    (isMark : mark = 101 ∨ mark = 69) (isSign : signText rest = (sign, digits ++ after))
    (allDigits : digits.all isAsciiDigit = true)
    (isEnd : ∀ byte, after.head? = some byte → isAsciiDigit byte = false) :
    exponentText mantissa (mark :: rest) = (mantissa ++ (mark :: sign ++ digits), after) := by
  have split := takeWhile_append_of_all allDigits isEnd
  unfold exponentText
  dsimp only
  rw [if_pos isMark, isSign, split.1, split.2, List.append_assoc]

theorem exponentText_some (mantissa : Bytes) {mark digits after : Bytes}
    (isMark : mark ∈ exponentMarks) (notEmpty : digits ≠ [])
    (allDigits : digits.all isAsciiDigit = true)
    (isEnd : ∀ byte, after.head? = some byte → isAsciiDigit byte = false) :
    exponentText mantissa (mark ++ digits ++ after) = (mantissa ++ (mark ++ digits), after) := by
  have unsigned := signText_digits notEmpty allDigits after
  simp only [exponentMarks, List.mem_cons, List.not_mem_nil, or_false] at isMark
  rcases isMark with rfl | rfl | rfl | rfl | rfl | rfl
  · exact exponentText_signed mantissa (.inl rfl) unsigned allDigits isEnd
  · exact exponentText_signed mantissa (.inr rfl) unsigned allDigits isEnd
  all_goals
    exact exponentText_signed mantissa (by decide) rfl allDigits isEnd

/-- A literal is taken as it stands. -/
theorem numberText_literal (literal : Decimal) {after : Bytes}
    (isEnd : ∀ byte, after.head? = some byte → (Token.number literal).EndsAt byte) :
    numberText (literal.bytes ++ after) = (literal.bytes, after) := by
  have notDigit : ∀ byte, after.head? = some byte → isAsciiDigit byte = false := by
    intro byte isFirst
    have notIdent := (isEnd byte isFirst).1
    unfold isIdentByte at notIdent
    exact (Bool.or_eq_false_iff.mp notIdent).2
  rw [numberText_eq, Decimal.bytes]
  cases isExponent : literal.exponent with
  | none =>
      have isMantissa := mantissaText_literal literal notDigit
        (by
          intro isFraction isPoint
          obtain some | some := (isEnd 46 isPoint).2 rfl
          · rw [isFraction] at some
            cases some
          · rw [isExponent] at some
            cases some)
      rw [Option.elim_none, List.append_nil, isMantissa]
      exact exponentText_none _ fun byte isFirst => (isEnd byte isFirst).1
  | some pair =>
      obtain ⟨mark, digits⟩ := pair
      obtain ⟨isMark, notEmpty, allDigits⟩ := literal.exponentDigits mark digits isExponent
      have isFirst : ∀ byte, (mark ++ digits ++ after).head? = some byte →
          isAsciiDigit byte = false ∧ byte ≠ 46 := by
        intro byte isHead
        simp only [exponentMarks, List.mem_cons, List.not_mem_nil, or_false] at isMark
        rcases isMark with rfl | rfl | rfl | rfl | rfl | rfl <;> cases isHead <;> decide
      have isMantissa := mantissaText_literal literal (fun byte isHead => (isFirst byte isHead).1)
        (fun _ isPoint => (isFirst 46 isPoint).2 rfl)
      rw [Option.elim_some, List.append_assoc _ _ after, isMantissa]
      exact exponentText_some _ isMark notEmpty allDigits notDigit

theorem parseNumber_number
    {literal : Decimal} {tokens : List Token} {text : Bytes}
    (spells : Spells (.number literal :: tokens) text) :
    ∃ after, Spells tokens after ∧
      parseNumber text = (Cache.parseF64 literal.bytes).map fun number => (number, after) := by
  obtain ⟨after, isFront, others, isEnd⟩ := spells.front
  refine ⟨after, others, ?_⟩
  have isText : skipWs text = literal.bytes ++ after := isFront
  rw [parseNumber, isText, numberText_literal literal isEnd]

end Script
end MuonJs
