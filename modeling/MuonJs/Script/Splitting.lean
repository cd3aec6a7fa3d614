import MuonJs.Script.StatementText

/-!
# Cutting texts

Seven scanners cut a text into statements, items of a list or a group and what follows
it.  This module says what a text is whose strings and brackets are well formed, for
which of these texts every cut falls between strings and groups, and when the group that
is returned is the one that the matching delimiter closes.
-/

namespace MuonJs
namespace Script
namespace Splitting

open Cache (Bytes asBytes)
open Walker

/-! ## Two scanners more -/

/-- The loop of `split_statements_with_offsets`, with the text since the last cut and where
it starts. -/
def splitWithOffsetsFrom (quote : Option UInt8) (depth : ℤ) (start : ℕ) (piece : Bytes) :
    Bytes → Option (List (ℕ × Bytes))
  | [] =>
      if depth = 0 then some (if (trim piece).isEmpty then [] else [(start, piece)]) else none
  | byte :: rest =>
      match plainQuote quote byte with
      | some quote => splitWithOffsetsFrom quote depth start (piece ++ [byte]) rest
      | none =>
          if isOpening byte then
            splitWithOffsetsFrom none (depth + 1) start (piece ++ [byte]) rest
          else if isClosing byte then
            if depth - 1 < 0 then none
            else if depth - 1 = 0 ∧ byte = 125 ∧
                ¬Walker.startsWithKeyword "else" 123 (trimStart rest) ∧
                endsWithBrace (trim (piece ++ [byte])) then
              (splitWithOffsetsFrom none (depth - 1) (start + (piece ++ [byte]).length) []
                rest).map ((start, piece ++ [byte]) :: ·)
            else splitWithOffsetsFrom none (depth - 1) start (piece ++ [byte]) rest
          else if (byte = 59 ∨ byte = 10) ∧ depth = 0 ∧ ¬goesOn byte (trim piece) rest then
            (splitWithOffsetsFrom none depth (start + (piece ++ [byte]).length) [] rest).map
              ((if (trim piece).isEmpty then [] else [(start, piece)]) ++ ·)
          else splitWithOffsetsFrom none depth start (piece ++ [byte]) rest

/-- `split_statements_with_offsets`. -/
def splitStatementsWithOffsets (src : Bytes) : Option (List (ℕ × Bytes)) :=
  if (trim src).isEmpty then some [] else splitWithOffsetsFrom none 0 0 [] src

/-- The loop of `extract_bracket`. -/
def bracketEndFrom (quote : Option UInt8) (depth : ℤ) (index : ℕ) : Bytes → Option ℕ
  | [] => none
  | byte :: rest =>
      match plainQuote quote byte with
      | some quote => bracketEndFrom quote depth (index + 1) rest
      | none =>
          if byte = 91 then bracketEndFrom none (depth + 1) (index + 1) rest
          else if byte = 93 then
            if depth - 1 = 0 then some index
            else bracketEndFrom none (depth - 1) (index + 1) rest
          else bracketEndFrom none depth (index + 1) rest

/-- `extract_bracket`. -/
def extractBracket (text : Bytes) : Option (Bytes × Bytes) :=
  if text.head? = some 91 then
    (bracketEndFrom none 0 0 text).map fun index =>
      ((text.take index).drop 1, text.drop (index + 1))
  else none

/-! ## Well-formed texts -/

/-- The text within the quotes of a string; a backslash goes with the byte after it. -/
inductive LiteralBody (mark : UInt8) : Bytes → Prop
  | nil : LiteralBody mark []
  | byte {byte : UInt8} {rest : Bytes} (notMark : byte ≠ mark) (notBackslash : byte ≠ 92)
      (isRest : LiteralBody mark rest) : LiteralBody mark (byte :: rest)
  | escape (byte : UInt8) {rest : Bytes} (isRest : LiteralBody mark rest) :
      LiteralBody mark (92 :: byte :: rest)

/-- A quote. -/
def IsMark (byte : UInt8) : Prop := byte = 39 ∨ byte = 34

/-- A byte that neither opens nor closes anything. -/
def IsCode (byte : UInt8) : Prop :=
  ¬IsMark byte ∧ isOpening byte = false ∧ isClosing byte = false

/-- The delimiters of groups. -/
def IsPair (opening closing : UInt8) : Prop :=
  opening = 40 ∧ closing = 41 ∨ opening = 91 ∧ closing = 93 ∨ opening = 123 ∧ closing = 125

/-- A text whose strings and groups are well formed, with strings that are good. -/
inductive WellFormed (good : UInt8 → Bytes → Prop) : Bytes → Prop
  | nil : WellFormed good []
  | code {byte : UInt8} {rest : Bytes} (isCode : IsCode byte) (isRest : WellFormed good rest) :
      WellFormed good (byte :: rest)
  | string {mark : UInt8} {body rest : Bytes} (isMark : IsMark mark)
      (isBody : LiteralBody mark body) (isGood : good mark body)
      (isRest : WellFormed good rest) : WellFormed good (mark :: (body ++ mark :: rest))
  | group {opening closing : UInt8} {inner rest : Bytes} (isPair : IsPair opening closing)
      (isInner : WellFormed good inner) (isRest : WellFormed good rest) :
      WellFormed good (opening :: (inner ++ closing :: rest))

/-- Any string. -/
def AnyString (_ : UInt8) (_ : Bytes) : Prop := True

/-- A string in which its own quote is not escaped. -/
def NoOwnQuote (mark : UInt8) (body : Bytes) : Prop := mark ∉ body

/-- A string that does not end in an escaped backslash. -/
def NoLastBackslash (_ : UInt8) (body : Bytes) : Prop := body.getLast? ≠ some 92

/-- White space. -/
def IsBlank (text : Bytes) : Prop :=
  ∃ spaces : List Bytes, (∀ space ∈ spaces, space ∈ whiteSpaces) ∧ text = spaces.flatten

/-- A stretch of text as a piece: nothing when it is white space, else without the white
space around it. -/
inductive Part : Bytes → List Bytes → Prop
  | blank {text : Bytes} (isBlank : IsBlank text) : Part text []
  | piece {front text behind : Bytes} (isFront : IsBlank front) (isBehind : IsBlank behind) :
      Part (front ++ text ++ behind) [text]

/-- A text that is cut into pieces between its strings and groups: at semicolons and line
ends, which are left out, and after closing braces. -/
inductive Cut : Bytes → List Bytes → Prop
  | last {text : Bytes} {pieces : List Bytes} (isText : WellFormed AnyString text)
      (isPart : Part text pieces) : Cut text pieces
  | separator {text rest : Bytes} {byte : UInt8} {pieces others : List Bytes}
      (isText : WellFormed AnyString text) (isPart : Part text pieces)
      (isByte : byte = 59 ∨ byte = 10) (isRest : Cut rest others) :
      Cut (text ++ byte :: rest) (pieces ++ others)
  | block {text rest : Bytes} {pieces others : List Bytes}
      (isText : WellFormed AnyString (text ++ [125])) (isPart : Part (text ++ [125]) pieces)
      (isRest : Cut rest others) : Cut (text ++ 125 :: rest) (pieces ++ others)

/-- A text that is cut at commas between its strings and groups. -/
inductive Items : Bytes → List Bytes → Prop
  | last {text : Bytes} {pieces : List Bytes} (isText : WellFormed AnyString text)
      (isPart : Part text pieces) : Items text pieces
  | comma {front text behind rest : Bytes} {others : List Bytes}
      (isText : WellFormed AnyString (front ++ text ++ behind)) (isFront : IsBlank front)
      (isBehind : IsBlank behind) (isRest : Items rest others) :
      Items (front ++ text ++ behind ++ 44 :: rest) (text :: others)

/-- A text whose groups of one kind are balanced when a string is read up to the next equal
quote, escaped or not. -/
inductive PlainGroups (opening closing : UInt8) : Bytes → Prop
  | nil : PlainGroups opening closing []
  | code {byte : UInt8} {rest : Bytes} (notMark : ¬IsMark byte) (notOpening : byte ≠ opening)
      (notClosing : byte ≠ closing) (isRest : PlainGroups opening closing rest) :
      PlainGroups opening closing (byte :: rest)
  | string {mark : UInt8} {body rest : Bytes} (isMark : IsMark mark) (notInside : mark ∉ body)
      (isRest : PlainGroups opening closing rest) :
      PlainGroups opening closing (mark :: (body ++ mark :: rest))
  | group {inner rest : Bytes} (isInner : PlainGroups opening closing inner)
      (isRest : PlainGroups opening closing rest) :
      PlainGroups opening closing (opening :: (inner ++ closing :: rest))

/-! ## White space -/

theorem dropPatterns_skip (patterns : List Bytes) (skip : ℕ) (text : Bytes) :
    dropPatterns patterns skip text = dropPatterns patterns 0 (text.drop skip) := by
  induction text generalizing skip with
  | nil => cases skip <;> rfl
  | cons byte rest ih =>
      cases skip with
      | zero => rfl
      | succ skip => rw [dropPatterns, ih, List.drop_succ_cons]

/-- What is dropped from the front consists of patterns. -/
theorem dropPatterns_spec {patterns : List Bytes} (nonempty : ∀ pattern ∈ patterns, pattern ≠ [])
    (text : Bytes) :
    ∃ dropped : List Bytes, (∀ pattern ∈ dropped, pattern ∈ patterns) ∧
      text = dropped.flatten ++ dropPatterns patterns 0 text := by
  induction isLength : text.length using Nat.strong_induction_on generalizing text with
  | _ length ih =>
      cases text with
      | nil => exact ⟨[], List.forall_mem_nil _, rfl⟩
      | cons byte rest =>
          rw [dropPatterns]
          cases isFound : patterns.find? fun pattern => pattern.isPrefixOf (byte :: rest) with
          | none => exact ⟨[], List.forall_mem_nil _, rfl⟩
          | some pattern =>
              have isPattern := List.mem_of_find?_eq_some isFound
              have isPrefix := List.find?_some isFound
              rw [List.isPrefixOf_iff_prefix] at isPrefix
              obtain ⟨first, others, rfl⟩ := List.exists_cons_of_ne_nil (nonempty pattern isPattern)
              obtain ⟨rfl, after, rfl⟩ := List.cons_prefix_cons.mp isPrefix
              obtain ⟨dropped, isDropped, isAfter⟩ := ih after.length
                (by rw [← isLength, List.length_cons, List.length_append]; omega) after rfl
              refine ⟨(first :: others) :: dropped, ?_, ?_⟩
              · rintro space (_ | ⟨_, isMember⟩)
                · exact isPattern
                · exact isDropped space isMember
              · dsimp only
                rw [List.length_cons, Nat.add_sub_cancel, dropPatterns_skip, List.drop_left,
                  List.flatten_cons, List.append_assoc, ← isAfter, List.cons_append]

theorem whiteSpaces_ne_nil : ∀ space ∈ whiteSpaces, space ≠ [] := by
  simp [whiteSpaces]

/-- What is trimmed is white space. -/
theorem trim_spec (text : Bytes) :
    ∃ front behind, IsBlank front ∧ IsBlank behind ∧ text = front ++ trim text ++ behind := by
  obtain ⟨dropped, isDropped, isText⟩ := dropPatterns_spec whiteSpaces_ne_nil text
  have reversed : ∀ space ∈ whiteSpaces.map List.reverse, space ≠ [] := by
    simp [whiteSpaces]
  obtain ⟨behind, isBehind, isStart⟩ := dropPatterns_spec reversed (trimStart text).reverse
  have isTrimmed := congrArg List.reverse isStart
  rw [List.reverse_reverse, List.reverse_append] at isTrimmed
  refine ⟨dropped.flatten, behind.flatten.reverse, ⟨dropped, isDropped, rfl⟩,
    ⟨(behind.map List.reverse).reverse, ?_, ?_⟩, ?_⟩
  · intro space isSpace
    obtain ⟨original, isOriginal, rfl⟩ := List.mem_map.mp (List.mem_reverse.mp isSpace)
    obtain ⟨pattern, isPattern, rfl⟩ := List.mem_map.mp (isBehind original isOriginal)
    rwa [List.reverse_reverse]
  · rw [List.reverse_flatten]
  · rw [trim, trimEnd, List.append_assoc, ← isTrimmed, trimStart]
    exact isText

theorem isBlank_of_trim {text : Bytes} (isEmpty : (trim text).isEmpty = true) : IsBlank text := by
  obtain ⟨front, behind, ⟨spaces, isFront, rfl⟩, ⟨others, isBehind, rfl⟩, isText⟩ := trim_spec text
  refine ⟨spaces ++ others, fun space isSpace => ?_, ?_⟩
  · exact (List.mem_append.mp isSpace).elim (isFront space) (isBehind space)
  · rw [isText, List.isEmpty_iff.mp isEmpty, List.append_nil, List.flatten_append]

/-- A piece that is kept is a part of the text. -/
theorem part_keptPiece (text : Bytes) : Part text (keptPiece text) := by
  rw [keptPiece]
  split
  case isTrue isEmpty => exact .blank (isBlank_of_trim isEmpty)
  case isFalse =>
    obtain ⟨front, behind, isFront, isBehind, isText⟩ := trim_spec text
    have isPart := @Part.piece front (trim text) behind isFront isBehind
    rwa [← isText] at isPart

/-! ## Building well-formed texts -/

namespace WellFormed

variable {good : UInt8 → Bytes → Prop} {text other : Bytes}

theorem mono {better : UInt8 → Bytes → Prop} (implies : ∀ mark body, good mark body → better mark body)
    (isText : WellFormed good text) : WellFormed better text := by
  induction isText with
  | nil => exact .nil
  | code isCode _ ih => exact .code isCode ih
  | string isMark isBody isGood _ ih => exact .string isMark isBody (implies _ _ isGood) ih
  | group isPair _ _ ihInner ih => exact .group isPair ihInner ih

theorem any (isText : WellFormed good text) : WellFormed AnyString text :=
  isText.mono fun _ _ _ => trivial

theorem append (isText : WellFormed good text) (isOther : WellFormed good other) :
    WellFormed good (text ++ other) := by
  induction isText with
  | nil => exact isOther
  | code isCode _ ih => exact .code isCode ih
  | string isMark isBody isGood _ ih =>
      rw [List.cons_append, List.append_assoc, List.cons_append]
      exact .string isMark isBody isGood ih
  | group isPair isInner _ _ ih =>
      rw [List.cons_append, List.append_assoc, List.cons_append]
      exact .group isPair isInner ih

end WellFormed

/-! ## Scanners that ignore backslashes -/

theorem plainQuote_mark {mark : UInt8} (isMark : IsMark mark) :
    plainQuote none mark = some (some mark) := by
  rw [plainQuote]
  exact if_pos isMark

theorem plainQuote_inside {mark byte : UInt8} (differ : byte ≠ mark) :
    plainQuote (some mark) byte = some (some mark) := by
  rw [plainQuote, if_neg differ]

theorem plainQuote_end (mark : UInt8) : plainQuote (some mark) mark = some none := by
  rw [plainQuote, if_pos rfl]

theorem plainQuote_code {byte : UInt8} (notMark : ¬IsMark byte) : plainQuote none byte = none := by
  rw [plainQuote]
  exact if_neg notMark

theorem IsPair.opens {opening closing : UInt8} (isPair : IsPair opening closing) :
    ¬IsMark opening ∧ isOpening opening = true := by
  obtain ⟨rfl, rfl⟩ | ⟨rfl, rfl⟩ | ⟨rfl, rfl⟩ := isPair <;> exact ⟨by rw [IsMark]; decide, rfl⟩

theorem IsPair.closes {opening closing : UInt8} (isPair : IsPair opening closing) :
    ¬IsMark closing ∧ isOpening closing = false ∧ isClosing closing = true := by
  obtain ⟨rfl, rfl⟩ | ⟨rfl, rfl⟩ | ⟨rfl, rfl⟩ := isPair <;>
    exact ⟨by rw [IsMark]; decide, rfl, rfl⟩

theorem not_isClosing_of_isOpening {byte : UInt8} (opens : isOpening byte = true) :
    isClosing byte = false ∧ byte ≠ 44 := by
  simp only [isOpening, Bool.or_eq_true, decide_eq_true_iff] at opens
  obtain (rfl | rfl) | rfl := opens <;> decide

/-- A scanner with one depth for all groups, that cuts at no depth but zero. -/
structure PlainScanner {α : Type} (scan : Option UInt8 → ℤ → Bytes → Bytes → α) : Prop where
  quoted : ∀ {quote after : Option UInt8} (depth : ℤ) (piece : Bytes) {byte : UInt8}
    (rest : Bytes), plainQuote quote byte = some after →
      scan quote depth piece (byte :: rest) = scan after depth (piece ++ [byte]) rest
  opens : ∀ (depth : ℤ) (piece : Bytes) {byte : UInt8} (rest : Bytes), ¬IsMark byte →
    isOpening byte = true →
      scan none depth piece (byte :: rest) = scan none (depth + 1) (piece ++ [byte]) rest
  closes : ∀ {depth : ℤ} (piece : Bytes) {byte : UInt8} (rest : Bytes), ¬IsMark byte →
    isOpening byte = false → isClosing byte = true → 1 < depth →
      scan none depth piece (byte :: rest) = scan none (depth - 1) (piece ++ [byte]) rest
  goes : ∀ {depth : ℤ} (piece : Bytes) {byte : UInt8} (rest : Bytes), IsCode byte → 0 < depth →
    scan none depth piece (byte :: rest) = scan none depth (piece ++ [byte]) rest

namespace PlainScanner

variable {α : Type} {scan : Option UInt8 → ℤ → Bytes → Bytes → α}

/-- A string is read to its end when its own quote is not escaped. -/
theorem string (scanner : PlainScanner scan) {mark : UInt8} (isMark : IsMark mark) {body : Bytes}
    (noQuote : NoOwnQuote mark body) (depth : ℤ) (piece rest : Bytes) :
    scan none depth piece (mark :: (body ++ mark :: rest)) =
      scan none depth (piece ++ mark :: (body ++ [mark])) rest := by
  have inside (text before : Bytes) (notInside : mark ∉ text) :
      scan (some mark) depth before (text ++ mark :: rest) =
        scan none depth (before ++ (text ++ [mark])) rest := by
    induction text generalizing before with
    | nil => exact scanner.quoted depth before rest (plainQuote_end mark)
    | cons byte others ih =>
        rw [List.mem_cons, not_or] at notInside
        rw [List.cons_append, scanner.quoted depth before _ (plainQuote_inside (Ne.symm notInside.1)),
          ih _ notInside.2, List.append_assoc, List.singleton_append, List.cons_append]
  rw [scanner.quoted depth piece _ (plainQuote_mark isMark), inside body _ noQuote,
    List.append_assoc, List.singleton_append]

/-- What lies inside a group is read without a cut. -/
theorem inner (scanner : PlainScanner scan) {text : Bytes} (isText : WellFormed NoOwnQuote text)
    {depth : ℤ} (isDeep : 0 < depth) (piece rest : Bytes) :
    scan none depth piece (text ++ rest) = scan none depth (piece ++ text) rest := by
  induction isText generalizing depth piece rest with
  | nil => rw [List.nil_append, List.append_nil]
  | code isCode _ ih =>
      rw [List.cons_append, scanner.goes piece _ isCode isDeep, ih isDeep, List.append_assoc,
        List.singleton_append]
  | string isMark _ isGood _ ih =>
      rw [List.cons_append, List.append_assoc, List.cons_append,
        scanner.string isMark isGood, ih isDeep]
      simp
  | group isPair _ _ ihInner ih =>
      obtain ⟨notMark, isOpening⟩ := isPair.opens
      obtain ⟨notQuote, notOpening, isClosing⟩ := isPair.closes
      rw [List.cons_append, List.append_assoc, List.cons_append,
        scanner.opens depth piece _ notMark isOpening, ihInner (by omega),
        scanner.closes _ _ notQuote notOpening isClosing (show 1 < depth + 1 by omega),
        add_sub_cancel_right, ih isDeep]
      simp

/-- A group up to its closing delimiter. -/
theorem group (scanner : PlainScanner scan) {opening closing : UInt8}
    (isPair : IsPair opening closing) {text : Bytes} (isText : WellFormed NoOwnQuote text)
    (piece rest : Bytes) :
    scan none 0 piece (opening :: (text ++ closing :: rest)) =
      scan none 1 (piece ++ opening :: text) (closing :: rest) := by
  obtain ⟨notMark, isOpening⟩ := isPair.opens
  rw [scanner.opens 0 piece _ notMark isOpening, scanner.inner isText (by decide), zero_add,
    List.append_assoc, List.singleton_append]

end PlainScanner

theorem splitStatementsFrom_scanner : PlainScanner splitStatementsFrom where
  quoted depth piece byte rest isQuoted := by
    rw [splitStatementsFrom, isQuoted]
  opens depth piece byte rest notMark isOpening := by
    rw [splitStatementsFrom, plainQuote_code notMark]
    exact if_pos isOpening
  closes piece byte rest notMark notOpening isClosing isDeep := by
    rw [splitStatementsFrom, plainQuote_code notMark]
    dsimp only
    rw [if_neg (by rw [notOpening]; decide), if_pos isClosing, if_neg (by omega),
      if_neg (by omega)]
  goes piece byte rest isCode isDeep := by
    rw [splitStatementsFrom, plainQuote_code isCode.1]
    dsimp only
    rw [if_neg (by rw [isCode.2.1]; decide), if_neg (by rw [isCode.2.2]; decide),
      if_neg (by omega)]

theorem splitTopLevelFrom_scanner : PlainScanner splitTopLevelFrom where
  quoted depth piece byte rest isQuoted := by
    rw [splitTopLevelFrom, isQuoted]
  opens depth piece byte rest notMark isOpening := by
    obtain ⟨notClosing, notComma⟩ := not_isClosing_of_isOpening isOpening
    rw [splitTopLevelFrom, plainQuote_code notMark, depthAfter, if_pos isOpening]
    dsimp only
    rw [if_neg (by rw [notClosing]; simp), if_neg (by simp [notComma])]
  closes piece byte rest notMark notOpening isClosing isDeep := by
    rw [splitTopLevelFrom, plainQuote_code notMark, depthAfter]
    dsimp only
    rw [if_neg (by omega), if_neg (by omega), if_neg (by rw [notOpening]; decide),
      if_pos isClosing]
  goes piece byte rest isCode isDeep := by
    rw [splitTopLevelFrom, plainQuote_code isCode.1, depthAfter]
    dsimp only
    rw [if_neg (by rw [isCode.2.2]; simp), if_neg (by omega),
      if_neg (by rw [isCode.2.1]; decide), if_neg (by rw [isCode.2.2]; decide)]

/-! ## Statements -/

/-- A byte outside of groups: a cut, or no cut. -/
theorem splitStatementsFrom_code {byte : UInt8} (isCode : IsCode byte) (piece rest : Bytes) :
    (byte = 59 ∨ byte = 10) ∧ splitStatementsFrom none 0 piece (byte :: rest) =
        (splitStatementsFrom none 0 [] rest).map (keptPiece piece ++ ·) ∨
      splitStatementsFrom none 0 piece (byte :: rest) =
        splitStatementsFrom none 0 (piece ++ [byte]) rest := by
  rw [splitStatementsFrom, plainQuote_code isCode.1]
  dsimp only
  rw [if_neg (by rw [isCode.2.1]; decide), if_neg (by rw [isCode.2.2]; decide)]
  by_cases isCut : (byte = 59 ∨ byte = 10) ∧ (0 : ℤ) = 0 ∧ ¬goesOn byte (trim piece) rest = true
  · exact .inl ⟨isCut.1, if_pos isCut⟩
  · exact .inr (if_neg isCut)

/-- The end of a group: a cut after a brace, or no cut. -/
theorem splitStatementsFrom_close {opening closing : UInt8} (isPair : IsPair opening closing)
    (piece rest : Bytes) :
    closing = 125 ∧ splitStatementsFrom none 1 piece (closing :: rest) =
        (splitStatementsFrom none 0 [] rest).map (trim (piece ++ [closing]) :: ·) ∧
        (trim (piece ++ [closing])).isEmpty = false ∨
      splitStatementsFrom none 1 piece (closing :: rest) =
        splitStatementsFrom none 0 (piece ++ [closing]) rest := by
  obtain ⟨notQuote, notOpening, isClosing⟩ := isPair.closes
  rw [splitStatementsFrom, plainQuote_code notQuote]
  dsimp only
  rw [if_neg (by rw [notOpening]; decide), if_pos isClosing, if_neg (by decide), sub_self]
  by_cases isCut : (0 : ℤ) = 0 ∧ closing = 125 ∧
      ¬Walker.startsWithKeyword "else" 123 (trimStart rest) = true ∧
      endsWithBrace (trim (piece ++ [closing])) = true
  · refine .inl ⟨isCut.2.1, if_pos isCut, ?_⟩
    cases isTrim : trim (piece ++ [closing]) with
    | nil =>
        have isBlock := isCut.2.2.2
        rw [isTrim] at isBlock
        cases isBlock
    | cons => rfl
  · exact .inr (if_neg isCut)

/-- `split_statements` cuts between strings and groups. -/
theorem splitStatementsFrom_cut {text : Bytes} (isText : WellFormed NoOwnQuote text)
    {piece : Bytes} (isPiece : WellFormed NoOwnQuote piece) :
    ∃ pieces, splitStatementsFrom none 0 piece text = some pieces ∧
      Cut (piece ++ text) pieces := by
  induction isText generalizing piece with
  | nil =>
      refine ⟨keptPiece piece, by rw [splitStatementsFrom, if_pos rfl], ?_⟩
      rw [List.append_nil]
      exact .last isPiece.any (part_keptPiece piece)
  | @code byte rest isCode isRest ih =>
      obtain ⟨isByte, isCut⟩ | isNext := splitStatementsFrom_code isCode piece rest
      · obtain ⟨pieces, isSplit, cut⟩ := ih .nil
        rw [isCut, isSplit]
        exact ⟨_, rfl, .separator isPiece.any (part_keptPiece piece) isByte cut⟩
      · obtain ⟨pieces, isSplit, cut⟩ := ih (isPiece.append (.code isCode .nil))
        rw [List.append_assoc] at cut
        exact ⟨pieces, isNext.trans isSplit, cut⟩
  | @string mark body rest isMark isBody isGood isRest ih =>
      obtain ⟨pieces, isSplit, cut⟩ := ih (isPiece.append (.string isMark isBody isGood .nil))
      refine ⟨pieces, (splitStatementsFrom_scanner.string isMark isGood 0 piece rest).trans isSplit, ?_⟩
      simpa using cut
  | @group opening closing inner rest isPair isInner isRest _ ih =>
      have isGroup := isPiece.append (.group isPair isInner .nil)
      rw [splitStatementsFrom_scanner.group isPair isInner]
      obtain ⟨rfl, isCut, isKept⟩ | isNext :=
        splitStatementsFrom_close isPair (piece ++ opening :: inner) rest
      · obtain ⟨pieces, isSplit, cut⟩ := ih .nil
        have isPart := part_keptPiece (piece ++ opening :: inner ++ [125])
        rw [keptPiece, if_neg (by rw [isKept]; decide)] at isPart
        rw [isCut, isSplit]
        refine ⟨_, rfl, ?_⟩
        have isBlock := @Cut.block (piece ++ opening :: inner) _ _ _
          (by simpa using isGroup.any) isPart cut
        simpa using isBlock
      · obtain ⟨pieces, isSplit, cut⟩ := ih isGroup
        refine ⟨pieces, ?_, by simpa using cut⟩
        rw [isNext, ← isSplit]
        simp

theorem splitStatements_cut {text : Bytes} (isText : WellFormed NoOwnQuote text) :
    ∃ pieces, splitStatements text = some pieces ∧ Cut text pieces := by
  rw [splitStatements]
  split
  case isTrue isEmpty => exact ⟨[], rfl, .last isText.any (.blank (isBlank_of_trim isEmpty))⟩
  case isFalse => exact splitStatementsFrom_cut isText .nil

/-! ## Offsets -/

/-- Both ways to split give the same statements. -/
theorem map_splitWithOffsetsFrom (quote : Option UInt8) (depth : ℤ) (start : ℕ)
    (piece text : Bytes) :
    (splitWithOffsetsFrom quote depth start piece text).map (fun pieces =>
        pieces.map fun part => trim part.2) =
      splitStatementsFrom quote depth piece text := by
  induction text generalizing quote depth start piece with
  | nil =>
      rw [splitWithOffsetsFrom, splitStatementsFrom, keptPiece]
      split <;> [split; skip] <;> rfl
  | cons byte rest ih =>
      rw [splitWithOffsetsFrom, splitStatementsFrom]
      cases plainQuote quote byte with
      | some after => exact ih _ _ _ _
      | none =>
          dsimp only
          split_ifs
          · exact ih _ _ _ _
          · rfl
          · rw [← ih none (depth - 1) (start + (piece ++ [byte]).length) [], Option.map_map,
              Option.map_map]
            rfl
          · exact ih _ _ _ _
          · rw [← ih none depth (start + (piece ++ [byte]).length) [], Option.map_map,
              Option.map_map, keptPiece]
            simp [Function.comp_def, *]
          · rw [← ih none depth (start + (piece ++ [byte]).length) [], Option.map_map,
              Option.map_map, keptPiece]
            simp [Function.comp_def, *]
          · exact ih _ _ _ _

/-- Every statement is the text at its offset. -/
theorem splitWithOffsetsFrom_places {src before piece text : Bytes} {quote : Option UInt8}
    {depth : ℤ} {start : ℕ} (isSrc : src = before ++ piece ++ text)
    (isStart : before.length = start) {pieces : List (ℕ × Bytes)}
    (isSplit : splitWithOffsetsFrom quote depth start piece text = some pieces) :
    ∀ part ∈ pieces, (src.drop part.1).take part.2.length = part.2 := by
  have isPlace : (src.drop start).take piece.length = piece := by
    rw [isSrc, ← isStart, List.append_assoc, List.drop_left, List.take_left]
  induction text generalizing quote depth start piece before pieces with
  | nil =>
      rw [splitWithOffsetsFrom] at isSplit
      split at isSplit
      case isFalse => cases isSplit
      case isTrue =>
        cases isSplit
        split
        · exact List.forall_mem_nil _
        · rwa [List.forall_mem_singleton]
  | cons byte rest ih =>
      have isLonger : src = before ++ (piece ++ [byte]) ++ rest := by simpa using isSrc
      have isNext : src = (before ++ (piece ++ [byte])) ++ [] ++ rest := by simpa using isSrc
      have isEnd : (before ++ (piece ++ [byte])).length = start + (piece ++ [byte]).length := by
        rw [List.length_append, isStart]
      have isWhole : (src.drop start).take (piece ++ [byte]).length = piece ++ [byte] := by
        rw [isLonger, ← isStart, List.append_assoc, List.drop_left, List.take_left]
      rw [splitWithOffsetsFrom] at isSplit
      cases isQuoted : plainQuote quote byte with
      | some after =>
          rw [isQuoted] at isSplit
          exact ih isLonger isStart isSplit isWhole
      | none =>
          rw [isQuoted] at isSplit
          dsimp only at isSplit
          split_ifs at isSplit
          · exact ih isLonger isStart isSplit isWhole
          · obtain ⟨others, isOthers, rfl⟩ := Option.map_eq_some_iff.mp isSplit
            exact List.forall_mem_cons.mpr ⟨isWhole, ih isNext isEnd isOthers List.take_zero⟩
          · exact ih isLonger isStart isSplit isWhole
          · obtain ⟨others, isOthers, rfl⟩ := Option.map_eq_some_iff.mp isSplit
            exact ih isNext isEnd isOthers List.take_zero
          · obtain ⟨others, isOthers, rfl⟩ := Option.map_eq_some_iff.mp isSplit
            exact List.forall_mem_cons.mpr ⟨isPlace, ih isNext isEnd isOthers List.take_zero⟩
          · exact ih isLonger isStart isSplit isWhole

/-! ## Items -/

namespace WellFormed

variable {good : UInt8 → Bytes → Prop} {text : Bytes} {byte : UInt8}

theorem of_cons (isCode : IsCode byte) (isText : WellFormed good (byte :: text)) :
    WellFormed good text := by
  cases isText with
  | code _ isRest => exact isRest
  | string isMark => exact absurd isMark isCode.1
  | group isPair =>
      have opens := isPair.opens.2
      rw [isCode.2.1] at opens
      cases opens

theorem of_concat (isCode : IsCode byte) (isText : WellFormed good (text ++ [byte])) :
    WellFormed good text := by
  generalize isWhole : text ++ [byte] = whole at isText
  induction isText generalizing text with
  | nil => exact absurd isWhole (by simp)
  | @code first rest isFirst isRest ih =>
      cases text with
      | nil => exact .nil
      | cons other others =>
          rw [List.cons_append, List.cons.injEq] at isWhole
          obtain ⟨rfl, isOthers⟩ := isWhole
          exact .code isFirst (ih isOthers)
  | @string mark body rest isMark isBody isGood isRest ih =>
      obtain rfl | ⟨others, last, rfl⟩ := rest.eq_nil_or_concat'
      · have isLast := congrArg List.getLast? isWhole
        rw [List.getLast?_concat, ← List.cons_append, List.getLast?_concat, Option.some.injEq] at isLast
        exact absurd (isLast ▸ isMark) isCode.1
      · have isSame : text ++ [byte] = (mark :: (body ++ mark :: others)) ++ [last] := by
          simpa using isWhole
        obtain ⟨rfl, isByte⟩ := List.append_inj' isSame rfl
        rw [List.cons.injEq] at isByte
        exact .string isMark isBody isGood (ih (by rw [isByte.1]))
  | @group opening closing inner rest isPair isInner isRest _ ih =>
      obtain rfl | ⟨others, last, rfl⟩ := rest.eq_nil_or_concat'
      · have isLast := congrArg List.getLast? isWhole
        rw [List.getLast?_concat, ← List.cons_append, List.getLast?_concat, Option.some.injEq] at isLast
        have closes := isPair.closes.2.2
        rw [← isLast, isCode.2.2] at closes
        cases closes
      · have isSame : text ++ [byte] = (opening :: (inner ++ closing :: others)) ++ [last] := by
          simpa using isWhole
        obtain ⟨rfl, isByte⟩ := List.append_inj' isSame rfl
        rw [List.cons.injEq] at isByte
        exact .group isPair isInner (ih (by rw [isByte.1]))

end WellFormed

theorem IsBlank.isCode {text : Bytes} (isBlank : IsBlank text) : ∀ byte ∈ text, IsCode byte := by
  have isSpace : ∀ space ∈ whiteSpaces, ∀ byte ∈ space, IsCode byte := by
    simp [whiteSpaces, IsCode, IsMark, isOpening, isClosing]
  obtain ⟨spaces, areSpaces, rfl⟩ := isBlank
  intro byte isByte
  obtain ⟨space, isMember, isInside⟩ := List.mem_flatten.mp isByte
  exact isSpace space (areSpaces space isMember) byte isInside

/-- White space around a text can be left out. -/
theorem WellFormed.of_blanks {good : UInt8 → Bytes → Prop} {front text behind : Bytes}
    (isFront : IsBlank front) (isBehind : IsBlank behind)
    (isText : WellFormed good (front ++ text ++ behind)) : WellFormed good text := by
  have isStart : WellFormed good (front ++ text) := by
    have isCode := isBehind.isCode
    clear isBehind
    induction behind using List.reverseRecOn with
    | nil => rwa [List.append_nil] at isText
    | append_singleton others byte ih =>
        rw [← List.append_assoc] at isText
        exact ih (isText.of_concat (isCode byte (by simp))) fun other isOther =>
          isCode other (List.mem_append_left _ isOther)
  have isCode := isFront.isCode
  clear isFront isText
  induction front with
  | nil => exact isStart
  | cons byte others ih =>
      exact ih (isStart.of_cons (isCode byte List.mem_cons_self)) fun other isOther =>
        isCode other (List.mem_cons_of_mem _ isOther)

/-- `split_top_level` cuts at commas between strings and groups. -/
theorem splitTopLevelFrom_items {text : Bytes} (isText : WellFormed NoOwnQuote text)
    {piece : Bytes} (isPiece : WellFormed NoOwnQuote piece) :
    ∃ items, splitTopLevelFrom none 0 piece text = some items ∧ Items (piece ++ text) items := by
  induction isText generalizing piece with
  | nil =>
      refine ⟨keptPiece piece, by rw [splitTopLevelFrom, if_pos rfl], ?_⟩
      rw [List.append_nil]
      exact .last isPiece.any (part_keptPiece piece)
  | @code byte rest isCode isRest ih =>
      rw [splitTopLevelFrom, plainQuote_code isCode.1]
      dsimp only
      have isDepth : depthAfter 0 byte = 0 := by
        rw [depthAfter, if_neg (by rw [isCode.2.1]; decide), if_neg (by rw [isCode.2.2]; decide)]
      rw [if_neg (by rw [isCode.2.2]; simp), isDepth]
      by_cases isComma : byte = 44
      · obtain ⟨items, isSplit, isItems⟩ := ih .nil
        obtain ⟨front, behind, isFront, isBehind, isTrimmed⟩ := trim_spec piece
        rw [if_pos ⟨isComma, rfl⟩, isSplit, isComma]
        have isWhole := isPiece.any
        rw [isTrimmed] at isWhole
        have isNext := Items.comma isWhole isFront isBehind isItems
        rw [← isTrimmed] at isNext
        exact ⟨_, rfl, isNext⟩
      · obtain ⟨items, isSplit, isItems⟩ := ih (isPiece.append (.code isCode .nil))
        rw [if_neg fun both => isComma both.1]
        exact ⟨items, isSplit, by simpa using isItems⟩
  | @string mark body rest isMark isBody isGood isRest ih =>
      obtain ⟨items, isSplit, isItems⟩ := ih (isPiece.append (.string isMark isBody isGood .nil))
      refine ⟨items, (splitTopLevelFrom_scanner.string isMark isGood 0 piece rest).trans isSplit, ?_⟩
      simpa using isItems
  | @group opening closing inner rest isPair isInner isRest _ ih =>
      obtain ⟨items, isSplit, isItems⟩ := ih (isPiece.append (.group isPair isInner .nil))
      obtain ⟨notQuote, notOpening, closes⟩ := isPair.closes
      rw [splitTopLevelFrom_scanner.group isPair isInner, splitTopLevelFrom, plainQuote_code notQuote]
      dsimp only
      rw [if_neg (by simp), if_neg (by simp), depthAfter, if_neg (by rw [notOpening]; decide),
        if_pos closes, sub_self]
      exact ⟨items, by simpa using isSplit, by simpa using isItems⟩

theorem splitTopLevel_items {text : Bytes} (isText : WellFormed NoOwnQuote text) :
    ∃ items, splitTopLevel text = some items ∧ Items (trim text) items := by
  obtain ⟨front, behind, isFront, isBehind, isTrimmed⟩ := trim_spec text
  rw [isTrimmed] at isText
  have isInner := isText.of_blanks isFront isBehind
  rw [splitTopLevel]
  split
  case isTrue isEmpty =>
    refine ⟨[], rfl, .last isInner.any (.blank ⟨[], List.forall_mem_nil _, ?_⟩)⟩
    exact List.isEmpty_iff.mp isEmpty
  case isFalse => exact splitTopLevelFrom_items isInner .nil

/-! ## Statements of the compiler -/

theorem IsCode.ne {byte : UInt8} (isCode : IsCode byte) :
    (byte ≠ 40 ∧ byte ≠ 91 ∧ byte ≠ 123) ∧ byte ≠ 41 ∧ byte ≠ 93 ∧ byte ≠ 125 := by
  obtain ⟨-, notOpening, notClosing⟩ := isCode
  simp only [isOpening, isClosing, Bool.or_eq_false_iff, decide_eq_false_iff_not] at *
  tauto

theorem quoteStep_code {byte : UInt8} (notMark : ¬IsMark byte) (previous : Option UInt8) :
    quoteStep none previous byte = none := by
  rw [quoteStep]
  exact if_neg notMark

theorem quoteStep_mark {mark : UInt8} (isMark : IsMark mark) (previous : Option UInt8) :
    quoteStep none previous mark = some (some mark) := by
  rw [quoteStep]
  exact if_pos isMark

section Simple

variable (paren brace bracket : ℤ) (piece rest : Bytes)

/-- Outside of strings the byte before does not matter. -/
theorem simpleSplitFrom_previous (previous : Option UInt8) :
    simpleSplitFrom none previous paren brace bracket piece rest =
      simpleSplitFrom none none paren brace bracket piece rest := by
  cases rest with
  | nil => rw [simpleSplitFrom, simpleSplitFrom]
  | cons byte rest =>
      have isSame : quoteStep none previous byte = quoteStep none none byte := rfl
      rw [simpleSplitFrom, simpleSplitFrom, isSame]

theorem simpleSplitFrom_quoted {quote previous after : Option UInt8} {byte : UInt8}
    (isQuoted : quoteStep quote previous byte = some after) :
    simpleSplitFrom quote previous paren brace bracket piece (byte :: rest) =
      simpleSplitFrom after (some byte) paren brace bracket (piece ++ [byte]) rest := by
  rw [simpleSplitFrom, isQuoted]

/-- The text within the quotes of a string. -/
theorem simpleSplitFrom_body {mark before : UInt8} (isMark : IsMark mark) {body : Bytes}
    (isBody : LiteralBody mark body) (isLast : (before :: body).getLast? ≠ some 92) :
    simpleSplitFrom (some mark) (some before) paren brace bracket piece (body ++ mark :: rest) =
      simpleSplitFrom none none paren brace bracket (piece ++ (body ++ [mark])) rest := by
  induction isBody generalizing before piece with
  | nil =>
      have isEnd : quoteStep (some mark) (some before) mark = some none := by
        rw [quoteStep]
        exact congrArg some (if_pos ⟨rfl, isLast⟩)
      rw [List.nil_append, simpleSplitFrom_quoted _ _ _ _ _ isEnd, simpleSplitFrom_previous]
      rfl
  | @byte byte others notMark notBackslash _ ih =>
      have isInside : quoteStep (some mark) (some before) byte = some (some mark) := by
        rw [quoteStep]
        exact congrArg some (if_neg fun both => notMark both.1)
      rw [List.getLast?_cons_cons] at isLast
      rw [List.cons_append, simpleSplitFrom_quoted _ _ _ _ _ isInside, ih _ isLast]
      simp
  | @escape byte others _ ih =>
      have notMark : (92 : UInt8) ≠ mark := by
        obtain rfl | rfl := isMark <;> decide
      have isInside : quoteStep (some mark) (some before) 92 = some (some mark) := by
        rw [quoteStep]
        exact congrArg some (if_neg fun both => notMark both.1)
      have isHidden : quoteStep (some mark) (some 92) byte = some (some mark) := by
        rw [quoteStep]
        exact congrArg some (if_neg fun both => both.2 rfl)
      rw [List.getLast?_cons_cons, List.getLast?_cons_cons] at isLast
      rw [List.cons_append, List.cons_append, simpleSplitFrom_quoted _ _ _ _ _ isInside,
        simpleSplitFrom_quoted _ _ _ _ _ isHidden, ih _ isLast]
      simp

/-- A string that does not end in a backslash is read to its end. -/
theorem simpleSplitFrom_string {mark : UInt8} (isMark : IsMark mark) {body : Bytes}
    (isBody : LiteralBody mark body) (noBackslash : NoLastBackslash mark body) :
    simpleSplitFrom none none paren brace bracket piece (mark :: (body ++ mark :: rest)) =
      simpleSplitFrom none none paren brace bracket (piece ++ mark :: (body ++ [mark])) rest := by
  have isLast : (mark :: body).getLast? ≠ some 92 := by
    cases body with
    | nil => obtain rfl | rfl := isMark <;> decide
    | cons byte others => rwa [List.getLast?_cons_cons]
  rw [simpleSplitFrom_quoted _ _ _ _ _ (quoteStep_mark isMark none),
    simpleSplitFrom_body _ _ _ _ _ isMark isBody isLast]
  simp

theorem simpleSplitFrom_paren :
    simpleSplitFrom none none paren brace bracket piece (40 :: rest) =
        simpleSplitFrom none none (paren + 1) brace bracket (piece ++ [40]) rest ∧
      simpleSplitFrom none none paren brace bracket piece (41 :: rest) =
        simpleSplitFrom none none (paren - 1) brace bracket (piece ++ [41]) rest := by
  constructor
  · rw [simpleSplitFrom, quoteStep_code (by rw [IsMark]; decide)]
    dsimp only
    rw [if_pos rfl, simpleSplitFrom_previous]
  · rw [simpleSplitFrom, quoteStep_code (by rw [IsMark]; decide)]
    dsimp only
    rw [if_neg (by decide), if_pos rfl, simpleSplitFrom_previous]

theorem simpleSplitFrom_bracket :
    simpleSplitFrom none none paren brace bracket piece (91 :: rest) =
        simpleSplitFrom none none paren brace (bracket + 1) (piece ++ [91]) rest ∧
      simpleSplitFrom none none paren brace bracket piece (93 :: rest) =
        simpleSplitFrom none none paren brace (bracket - 1) (piece ++ [93]) rest := by
  constructor
  · rw [simpleSplitFrom, quoteStep_code (by rw [IsMark]; decide)]
    dsimp only
    rw [if_neg (by decide), if_neg (by decide), if_neg (by decide), if_neg (by decide), if_pos rfl, simpleSplitFrom_previous]
  · rw [simpleSplitFrom, quoteStep_code (by rw [IsMark]; decide)]
    dsimp only
    rw [if_neg (by decide), if_neg (by decide), if_neg (by decide), if_neg (by decide), if_neg (by decide), if_pos rfl, simpleSplitFrom_previous]

theorem simpleSplitFrom_brace :
    simpleSplitFrom none none paren brace bracket piece (123 :: rest) =
        simpleSplitFrom none none paren (brace + 1) bracket (piece ++ [123]) rest ∧
      simpleSplitFrom none none paren brace bracket piece (125 :: rest) =
        if paren = 0 ∧ brace - 1 = 0 ∧ bracket = 0 then
          keptPiece (piece ++ [125]) ++
            simpleSplitFrom none none paren (brace - 1) bracket [] rest
        else simpleSplitFrom none none paren (brace - 1) bracket (piece ++ [125]) rest := by
  constructor
  · rw [simpleSplitFrom, quoteStep_code (by rw [IsMark]; decide)]
    dsimp only
    rw [if_neg (by decide), if_neg (by decide), if_pos rfl, simpleSplitFrom_previous]
  · rw [simpleSplitFrom, quoteStep_code (by rw [IsMark]; decide)]
    dsimp only
    rw [if_neg (by decide), if_neg (by decide), if_neg (by decide), if_pos rfl, simpleSplitFrom_previous,
      simpleSplitFrom_previous _ _ _ (piece ++ [125])]

theorem simpleSplitFrom_code {byte : UInt8} (isCode : IsCode byte) :
    simpleSplitFrom none none paren brace bracket piece (byte :: rest) =
      if (byte = 59 ∨ byte = 10) ∧ paren = 0 ∧ brace = 0 ∧ bracket = 0 then
        keptPiece piece ++ simpleSplitFrom none none paren brace bracket [] rest
      else simpleSplitFrom none none paren brace bracket (piece ++ [byte]) rest := by
  obtain ⟨⟨notParen, notBracket, notBrace⟩, notCloseParen, notCloseBracket, notCloseBrace⟩ :=
    isCode.ne
  rw [simpleSplitFrom, quoteStep_code isCode.1]
  dsimp only
  rw [if_neg notParen, if_neg notCloseParen, if_neg notBrace, if_neg notCloseBrace,
    if_neg notBracket, if_neg notCloseBracket, simpleSplitFrom_previous,
    simpleSplitFrom_previous _ _ _ _ _ (some byte)]

end Simple

/-- What lies inside a group is read without a cut. -/
theorem simpleSplitFrom_inner {text : Bytes} (isText : WellFormed NoLastBackslash text)
    {paren brace bracket : ℤ} (isParen : 0 ≤ paren) (isBrace : 0 ≤ brace)
    (isBracket : 0 ≤ bracket) (isDeep : 0 < paren + brace + bracket) (piece rest : Bytes) :
    simpleSplitFrom none none paren brace bracket piece (text ++ rest) =
      simpleSplitFrom none none paren brace bracket (piece ++ text) rest := by
  induction isText generalizing paren brace bracket piece rest with
  | nil => rw [List.nil_append, List.append_nil]
  | code isCode _ ih =>
      rw [List.cons_append, simpleSplitFrom_code _ _ _ _ _ isCode, if_neg (by omega),
        ih isParen isBrace isBracket isDeep, List.append_assoc, List.singleton_append]
  | string isMark isBody isGood _ ih =>
      rw [List.cons_append, List.append_assoc, List.cons_append,
        simpleSplitFrom_string _ _ _ _ _ isMark isBody isGood,
        ih isParen isBrace isBracket isDeep]
      simp
  | group isPair _ _ ihInner ih =>
      rw [List.cons_append, List.append_assoc, List.cons_append]
      obtain ⟨rfl, rfl⟩ | ⟨rfl, rfl⟩ | ⟨rfl, rfl⟩ := isPair
      · rw [(simpleSplitFrom_paren _ _ _ _ _).1,
          ihInner (by omega) isBrace isBracket (by omega), (simpleSplitFrom_paren _ _ _ _ _).2,
          add_sub_cancel_right, ih isParen isBrace isBracket isDeep]
        simp
      · rw [(simpleSplitFrom_bracket _ _ _ _ _).1,
          ihInner isParen isBrace (by omega) (by omega), (simpleSplitFrom_bracket _ _ _ _ _).2,
          add_sub_cancel_right, ih isParen isBrace isBracket isDeep]
        simp
      · rw [(simpleSplitFrom_brace _ _ _ _ _).1, ihInner isParen (by omega) isBracket (by omega),
          (simpleSplitFrom_brace _ _ _ _ _).2, add_sub_cancel_right, if_neg (by omega),
          ih isParen isBrace isBracket isDeep]
        simp

/-- `simple_split_statements` cuts between strings and groups. -/
theorem simpleSplitFrom_cut {text : Bytes} (isText : WellFormed NoLastBackslash text)
    {piece : Bytes} (isPiece : WellFormed NoLastBackslash piece) :
    Cut (piece ++ text) (simpleSplitFrom none none 0 0 0 piece text) := by
  induction isText generalizing piece with
  | nil =>
      rw [simpleSplitFrom, List.append_nil]
      exact .last isPiece.any (part_keptPiece piece)
  | @code byte rest isCode isRest ih =>
      rw [simpleSplitFrom_code _ _ _ _ _ isCode]
      split
      case isTrue isCut =>
        exact .separator isPiece.any (part_keptPiece piece) isCut.1 (ih .nil)
      case isFalse =>
        have cut := ih (isPiece.append (.code isCode .nil))
        simpa using cut
  | @string mark body rest isMark isBody isGood isRest ih =>
      have cut := ih (isPiece.append (.string isMark isBody isGood .nil))
      rw [simpleSplitFrom_string _ _ _ _ _ isMark isBody isGood]
      simpa using cut
  | @group opening closing inner rest isPair isInner isRest _ ih =>
      have isGroup := isPiece.append (.group isPair isInner .nil)
      have cut := ih isGroup
      obtain ⟨rfl, rfl⟩ | ⟨rfl, rfl⟩ | ⟨rfl, rfl⟩ := isPair
      · rw [(simpleSplitFrom_paren _ _ _ _ _).1,
          simpleSplitFrom_inner isInner (by decide) (by decide) (by decide) (by decide),
          (simpleSplitFrom_paren _ _ _ _ _).2]
        simpa using cut
      · rw [(simpleSplitFrom_bracket _ _ _ _ _).1,
          simpleSplitFrom_inner isInner (by decide) (by decide) (by decide) (by decide),
          (simpleSplitFrom_bracket _ _ _ _ _).2]
        simpa using cut
      · rw [(simpleSplitFrom_brace _ _ _ _ _).1,
          simpleSplitFrom_inner isInner (by decide) (by decide) (by decide) (by decide),
          (simpleSplitFrom_brace _ _ _ _ _).2, if_pos (by decide)]
        have isBlock := @Cut.block (piece ++ [123] ++ inner) _ _ _
          (by simpa using isGroup.any) (part_keptPiece _) (ih .nil)
        simpa using isBlock

/-! ## Groups -/

/-- A scanner for the end of a group, which ignores backslashes. -/
structure GroupScanner (opening closing : UInt8)
    (scan : Option UInt8 → ℤ → ℕ → Bytes → Option ℕ) : Prop where
  finish : ∀ (quote : Option UInt8) (depth : ℤ) (index : ℕ), scan quote depth index [] = none
  quoted : ∀ {quote after : Option UInt8} (depth : ℤ) (index : ℕ) {byte : UInt8} (rest : Bytes),
    plainQuote quote byte = some after →
      scan quote depth index (byte :: rest) = scan after depth (index + 1) rest
  opens : ∀ (depth : ℤ) (index : ℕ) (rest : Bytes),
    scan none depth index (opening :: rest) = scan none (depth + 1) (index + 1) rest
  closes : ∀ (depth : ℤ) (index : ℕ) (rest : Bytes),
    scan none depth index (closing :: rest) =
      if depth - 1 = 0 then some index else scan none (depth - 1) (index + 1) rest
  goes : ∀ (depth : ℤ) (index : ℕ) {byte : UInt8} (rest : Bytes), ¬IsMark byte →
    byte ≠ opening → byte ≠ closing →
      scan none depth index (byte :: rest) = scan none depth (index + 1) rest

theorem parenEndFrom_scanner : GroupScanner 40 41 parenEndFrom where
  finish _ _ _ := by rw [parenEndFrom]
  quoted depth index byte rest isQuoted := by rw [parenEndFrom, isQuoted]
  opens depth index rest := by
    rw [parenEndFrom, plainQuote_code (by rw [IsMark]; decide)]
    exact if_pos rfl
  closes depth index rest := by
    rw [parenEndFrom, plainQuote_code (by rw [IsMark]; decide)]
    dsimp only
    rw [if_neg (by decide), if_pos rfl]
  goes depth index byte rest notMark notOpening notClosing := by
    rw [parenEndFrom, plainQuote_code notMark]
    dsimp only
    rw [if_neg notOpening, if_neg notClosing]

theorem bracketEndFrom_scanner : GroupScanner 91 93 bracketEndFrom where
  finish _ _ _ := by rw [bracketEndFrom]
  quoted depth index byte rest isQuoted := by rw [bracketEndFrom, isQuoted]
  opens depth index rest := by
    rw [bracketEndFrom, plainQuote_code (by rw [IsMark]; decide)]
    exact if_pos rfl
  closes depth index rest := by
    rw [bracketEndFrom, plainQuote_code (by rw [IsMark]; decide)]
    dsimp only
    rw [if_neg (by decide), if_pos rfl]
  goes depth index byte rest notMark notOpening notClosing := by
    rw [bracketEndFrom, plainQuote_code notMark]
    dsimp only
    rw [if_neg notOpening, if_neg notClosing]

namespace GroupScanner

variable {opening closing : UInt8} {scan : Option UInt8 → ℤ → ℕ → Bytes → Option ℕ}

/-- A string is read up to the next equal quote. -/
theorem inside (scanner : GroupScanner opening closing scan) {mark : UInt8} {body : Bytes}
    (notInside : mark ∉ body) (depth : ℤ) (index : ℕ) (rest : Bytes) :
    scan (some mark) depth index (body ++ mark :: rest) =
      scan none depth (index + body.length + 1) rest := by
  induction body generalizing index with
  | nil => exact scanner.quoted depth index rest (plainQuote_end mark)
  | cons byte others ih =>
      rw [List.mem_cons, not_or] at notInside
      rw [List.cons_append, scanner.quoted depth index _ (plainQuote_inside (Ne.symm notInside.1)),
        ih notInside.2, List.length_cons]
      congr 1
      omega

/-- A string that is not closed has no end. -/
theorem exists_end (scanner : GroupScanner opening closing scan) {mark : UInt8} {text : Bytes}
    {depth : ℤ} {index position : ℕ}
    (isFound : scan (some mark) depth index text = some position) :
    ∃ body rest, text = body ++ mark :: rest ∧ mark ∉ body := by
  by_cases isMember : mark ∈ text
  · exact List.eq_append_cons_of_mem isMember
  · exfalso
    induction text generalizing index with
    | nil =>
        rw [scanner.finish] at isFound
        cases isFound
    | cons byte others ih =>
        rw [List.mem_cons, not_or] at isMember
        rw [scanner.quoted depth index _ (plainQuote_inside (Ne.symm isMember.1))] at isFound
        exact ih isFound isMember.2

/-- Balanced groups are read through. -/
theorem through (scanner : GroupScanner opening closing scan) {text : Bytes}
    (isText : PlainGroups opening closing text) {depth : ℤ} (isDeep : 0 < depth) (index : ℕ)
    (rest : Bytes) :
    scan none depth index (text ++ rest) = scan none depth (index + text.length) rest := by
  induction isText generalizing depth index rest with
  | nil => rfl
  | code notMark notOpening notClosing _ ih =>
      rw [List.cons_append, scanner.goes depth index _ notMark notOpening notClosing, ih isDeep,
        List.length_cons, Nat.add_right_comm, Nat.add_assoc index]
  | string isMark notInside _ ih =>
      rw [List.cons_append, List.append_assoc, List.cons_append,
        scanner.quoted depth index _ (plainQuote_mark isMark), scanner.inside notInside, ih isDeep]
      congr 1
      simp only [List.length_cons, List.length_append]
      omega
  | group _ _ ihInner ih =>
      rw [List.cons_append, List.append_assoc, List.cons_append, scanner.opens,
        ihInner (by omega), scanner.closes, add_sub_cancel_right, if_neg (by omega), ih isDeep]
      congr 1
      simp only [List.length_cons, List.length_append]
      omega

/-- Where a group ends its text is balanced. -/
theorem exists_groups (scanner : GroupScanner opening closing scan) (text : Bytes) {depth : ℤ}
    (isDeep : 0 < depth) {index position : ℕ}
    (isFound : scan none depth index text = some position) :
    ∃ inner rest, text = inner ++ closing :: rest ∧ PlainGroups opening closing inner := by
  induction isLength : text.length using Nat.strong_induction_on
    generalizing text depth index position with
  | _ length ih =>
      cases text with
      | nil =>
          rw [scanner.finish] at isFound
          cases isFound
      | cons byte others =>
          rw [List.length_cons] at isLength
          by_cases isMark : IsMark byte
          · rw [scanner.quoted depth index _ (plainQuote_mark isMark)] at isFound
            obtain ⟨body, after, rfl, notInside⟩ := scanner.exists_end isFound
            rw [scanner.inside notInside] at isFound
            rw [List.length_append, List.length_cons] at isLength
            obtain ⟨inner, rest, rfl, isInner⟩ := ih after.length (by omega) after isDeep isFound rfl
            exact ⟨byte :: (body ++ byte :: inner), rest, by simp, .string isMark notInside isInner⟩
          · by_cases isOpening : byte = opening
            · subst isOpening
              rw [scanner.opens] at isFound
              obtain ⟨first, after, rfl, isFirst⟩ :=
                ih others.length (by omega) others (by omega) isFound rfl
              rw [scanner.through isFirst (by omega), scanner.closes, add_sub_cancel_right,
                if_neg (by omega)] at isFound
              rw [List.length_append, List.length_cons] at isLength
              obtain ⟨inner, rest, rfl, isInner⟩ :=
                ih after.length (by omega) after isDeep isFound rfl
              exact ⟨byte :: (first ++ closing :: inner), rest, by simp, .group isFirst isInner⟩
            · by_cases isClosing : byte = closing
              · subst isClosing
                exact ⟨[], others, rfl, .nil⟩
              · rw [scanner.goes depth index _ isMark isOpening isClosing] at isFound
                obtain ⟨inner, rest, rfl, isInner⟩ :=
                  ih others.length (by omega) others isDeep isFound rfl
                exact ⟨byte :: inner, rest, rfl, .code isMark isOpening isClosing isInner⟩

/-- The text of a group and what follows it are found exactly when the text is balanced with
backslashes ignored. -/
theorem group_iff (scanner : GroupScanner opening closing scan) (inner rest : Bytes) :
    (scan none 0 0 (opening :: (inner ++ closing :: rest))).map (fun index =>
        (((opening :: (inner ++ closing :: rest)).take index).drop 1,
          (opening :: (inner ++ closing :: rest)).drop (index + 1))) = some (inner, rest) ↔
      PlainGroups opening closing inner := by
  have isStart (text : Bytes) : scan none 0 0 (opening :: text) = scan none 1 1 text :=
    scanner.opens 0 0 text
  have isEnd {text : Bytes} (isText : PlainGroups opening closing text) (others : Bytes) :
      scan none 1 1 (text ++ closing :: others) = some (1 + text.length) := by
    rw [scanner.through isText (by decide), scanner.closes, if_pos (by decide)]
  rw [isStart]
  constructor
  · intro isFound
    obtain ⟨position, isPosition, isPair⟩ := Option.map_eq_some_iff.mp isFound
    obtain ⟨first, others, isText, isFirst⟩ :=
      scanner.exists_groups _ (by decide) isPosition
    rw [isText, isEnd isFirst, Option.some.injEq] at isPosition
    have isInner := congrArg Prod.fst isPair
    dsimp only at isInner
    rw [isText, ← isPosition, Nat.add_comm, List.take_succ_cons, List.drop_succ_cons,
      List.drop_zero, List.take_left] at isInner
    rwa [← isInner]
  · intro isInner
    rw [isEnd isInner, Option.map_some, Nat.add_comm, List.take_succ_cons, List.drop_succ_cons,
      List.drop_zero, List.take_left, List.drop_succ_cons, ← List.drop_drop, List.drop_left]
    rfl

end GroupScanner

/-- `extract_paren` returns the group exactly when it is balanced with backslashes ignored. -/
theorem extractParen_iff (inner rest : Bytes) :
    extractParen (40 :: (inner ++ 41 :: rest)) = some (inner, rest) ↔ PlainGroups 40 41 inner :=
  parenEndFrom_scanner.group_iff inner rest

/-- `extract_bracket` returns the group exactly when it is balanced with backslashes ignored. -/
theorem extractBracket_iff (inner rest : Bytes) :
    extractBracket (91 :: (inner ++ 93 :: rest)) = some (inner, rest) ↔ PlainGroups 91 93 inner :=
  bracketEndFrom_scanner.group_iff inner rest

/-! ## Braces -/

section Braces

variable (depth : ℤ) (index : ℕ) (rest : Bytes)

theorem escapedQuote_code {byte : UInt8} (notMark : ¬IsMark byte) :
    escapedQuote [34, 39] none byte = none := by
  have notMember : byte ∉ ([34, 39] : Bytes) := by
    rw [List.mem_cons, List.mem_singleton]
    exact fun isMember => notMark isMember.symm
  rw [escapedQuote, if_neg notMember]

theorem bracesEndFrom_quoted {quote after : Option (UInt8 × Bool)} {byte : UInt8}
    (isQuoted : escapedQuote [34, 39] quote byte = some after) :
    bracesEndFrom quote depth index (byte :: rest) = bracesEndFrom after depth (index + 1) rest := by
  rw [bracesEndFrom, isQuoted]

/-- A backslash hides the byte after it, so every string is read to its end. -/
theorem bracesEndFrom_body {mark : UInt8} (isMark : IsMark mark) {body : Bytes}
    (isBody : LiteralBody mark body) :
    bracesEndFrom (some (mark, false)) depth index (body ++ mark :: rest) =
      bracesEndFrom none depth (index + body.length + 1) rest := by
  induction isBody generalizing index with
  | nil =>
      have isEnd : escapedQuote [34, 39] (some (mark, false)) mark = some none := by
        rw [escapedQuote, if_pos rfl]
      exact bracesEndFrom_quoted depth index rest isEnd
  | @byte byte others notMark notBackslash _ ih =>
      have isInside : escapedQuote [34, 39] (some (mark, false)) byte = some (some (mark, false)) := by
        rw [escapedQuote, if_neg notMark, decide_eq_false notBackslash]
      rw [List.cons_append, bracesEndFrom_quoted _ _ _ isInside, ih, List.length_cons]
      congr 1
      omega
  | @escape byte others _ ih =>
      have notMark : (92 : UInt8) ≠ mark := by
        obtain rfl | rfl := isMark <;> decide
      have isInside : escapedQuote [34, 39] (some (mark, false)) 92 = some (some (mark, true)) := by
        rw [escapedQuote, if_neg notMark, decide_eq_true rfl]
      have isHidden : escapedQuote [34, 39] (some (mark, true)) byte = some (some (mark, false)) := by
        rw [escapedQuote]
      rw [List.cons_append, List.cons_append, bracesEndFrom_quoted _ _ _ isInside,
        bracesEndFrom_quoted _ _ _ isHidden, ih, List.length_cons, List.length_cons]
      congr 1
      omega

theorem bracesEndFrom_open :
    bracesEndFrom none depth index (123 :: rest) =
      bracesEndFrom none (depth + 1) (index + 1) rest := by
  rw [bracesEndFrom, escapedQuote_code (by rw [IsMark]; decide)]
  exact if_pos rfl

theorem bracesEndFrom_close :
    bracesEndFrom none depth index (125 :: rest) =
      if depth - 1 = 0 then some index else bracesEndFrom none (depth - 1) (index + 1) rest := by
  rw [bracesEndFrom, escapedQuote_code (by rw [IsMark]; decide)]
  dsimp only
  rw [if_neg (by decide), if_pos rfl]

theorem bracesEndFrom_other {byte : UInt8} (notMark : ¬IsMark byte) (notOpening : byte ≠ 123)
    (notClosing : byte ≠ 125) :
    bracesEndFrom none depth index (byte :: rest) = bracesEndFrom none depth (index + 1) rest := by
  rw [bracesEndFrom, escapedQuote_code notMark]
  dsimp only
  rw [if_neg notOpening, if_neg notClosing]

end Braces

/-- Well-formed text is read through. -/
theorem bracesEndFrom_through {text : Bytes} (isText : WellFormed AnyString text) {depth : ℤ}
    (isDeep : 0 < depth) (index : ℕ) (rest : Bytes) :
    bracesEndFrom none depth index (text ++ rest) =
      bracesEndFrom none depth (index + text.length) rest := by
  induction isText generalizing depth index rest with
  | nil => rfl
  | code isCode _ ih =>
      rw [List.cons_append, bracesEndFrom_other _ _ _ isCode.1 isCode.ne.1.2.2 isCode.ne.2.2.2,
        ih isDeep, List.length_cons, Nat.add_right_comm, Nat.add_assoc index]
  | @string mark body others isMark isBody _ _ ih =>
      have isStart : escapedQuote [34, 39] none mark = some (some (mark, false)) := by
        obtain rfl | rfl := isMark <;> rfl
      rw [List.cons_append, List.append_assoc, List.cons_append,
        bracesEndFrom_quoted _ _ _ isStart, bracesEndFrom_body _ _ _ isMark isBody, ih isDeep]
      congr 1
      simp only [List.length_cons, List.length_append]
      omega
  | @group opening closing inner others isPair _ _ ihInner ih =>
      have isLength : index + (opening :: (inner ++ closing :: others)).length =
          index + 1 + inner.length + 1 + others.length := by
        simp only [List.length_cons, List.length_append]
        omega
      rw [List.cons_append, List.append_assoc, List.cons_append, isLength]
      obtain ⟨rfl, rfl⟩ | ⟨rfl, rfl⟩ | ⟨rfl, rfl⟩ := isPair
      · rw [bracesEndFrom_other _ _ _ (by rw [IsMark]; decide) (by decide) (by decide),
          ihInner isDeep, bracesEndFrom_other _ _ _ (by rw [IsMark]; decide) (by decide) (by decide),
          ih isDeep]
      · rw [bracesEndFrom_other _ _ _ (by rw [IsMark]; decide) (by decide) (by decide),
          ihInner isDeep, bracesEndFrom_other _ _ _ (by rw [IsMark]; decide) (by decide) (by decide),
          ih isDeep]
      · rw [bracesEndFrom_open, ihInner (by omega), bracesEndFrom_close, add_sub_cancel_right,
          if_neg (by omega), ih isDeep]

/-- `extract_braces` returns the group of every well-formed text. -/
theorem extractBraces_eq {inner : Bytes} (isInner : WellFormed AnyString inner) (rest : Bytes) :
    extractBraces (123 :: (inner ++ 125 :: rest)) = some (inner, rest) := by
  rw [extractBraces, List.head?_cons, if_pos rfl, bracesEndFrom_open,
    bracesEndFrom_through isInner (by decide), bracesEndFrom_close, if_pos (by decide),
    Option.map_some, zero_add, Nat.add_comm, List.take_succ_cons, List.drop_succ_cons, List.drop_zero,
    List.take_left, List.drop_succ_cons, ← List.drop_drop, List.drop_left]
  rfl

/-! ## The scanners together -/

/-- Both ways to split into statements give the same statements, each the text at its offset.
Where no string has its own quote escaped, statements and items are cut between strings and
groups; where no string ends in a backslash, so are the statements of the compiler.  The
group of parentheses or brackets is returned exactly when it is balanced with backslashes
ignored, that of braces always. -/
theorem splitting_iff (text inner rest : Bytes) :
    ((splitStatementsWithOffsets text).map (fun pieces => pieces.map fun part => trim part.2) =
        splitStatements text ∧
      ∀ pieces, splitStatementsWithOffsets text = some pieces →
        ∀ part ∈ pieces, (text.drop part.1).take part.2.length = part.2) ∧
    (WellFormed NoOwnQuote text →
      (∃ pieces, splitStatements text = some pieces ∧ Cut text pieces) ∧
      ∃ items, splitTopLevel text = some items ∧ Items (trim text) items) ∧
    (WellFormed NoLastBackslash text → Cut text (simpleSplitStatements text)) ∧
    (extractParen (40 :: (inner ++ 41 :: rest)) = some (inner, rest) ↔ PlainGroups 40 41 inner) ∧
    (extractBracket (91 :: (inner ++ 93 :: rest)) = some (inner, rest) ↔ PlainGroups 91 93 inner) ∧
    (WellFormed AnyString inner →
      extractBraces (123 :: (inner ++ 125 :: rest)) = some (inner, rest)) := by
  refine ⟨⟨?_, fun pieces isSplit => ?_⟩, fun isText =>
    ⟨splitStatements_cut isText, splitTopLevel_items isText⟩,
    fun isText => simpleSplitFrom_cut isText .nil, extractParen_iff inner rest,
    extractBracket_iff inner rest, fun isInner => extractBraces_eq isInner rest⟩
  · rw [splitStatementsWithOffsets, splitStatements]
    split
    · rfl
    · exact map_splitWithOffsetsFrom none 0 0 [] text
  · rw [splitStatementsWithOffsets] at isSplit
    split at isSplit
    · cases isSplit
      exact List.forall_mem_nil _
    · exact @splitWithOffsetsFrom_places text [] [] text none 0 0 rfl rfl pieces isSplit

/-- A string that is cut off after its escaped quote is not well formed. -/
theorem not_wellFormed_escape : ¬WellFormed AnyString [34, 92, 34] := by
  intro isText
  generalize isWhole : ([34, 92, 34] : Bytes) = whole at isText
  cases isText with
  | nil => cases isWhole
  | code isCode =>
      rw [List.cons.injEq] at isWhole
      exact isCode.1 (.inr isWhole.1.symm)
  | @string mark body rest isMark isBody =>
      rw [List.cons.injEq] at isWhole
      obtain ⟨rfl, isRest⟩ := isWhole
      cases isBody with
      | nil => cases isRest
      | byte notMark notBackslash =>
          rw [List.cons_append, List.cons.injEq] at isRest
          exact notBackslash isRest.1.symm
      | escape byte =>
          have isLength := congrArg List.length isRest
          simp only [List.length_append, List.length_cons, List.length_nil] at isLength
          omega
  | group isPair =>
      rw [List.cons.injEq] at isWhole
      exact isPair.opens.1 (.inr isWhole.1.symm)

/-- A cut of a string at a semicolon within it is no cut between strings. -/
theorem not_cut_escape : ¬Cut [34, 92, 34, 59, 97, 34] [[34, 92, 34], [97, 34]] := by
  intro cut
  generalize isWhole : ([34, 92, 34, 59, 97, 34] : Bytes) = whole at cut
  generalize isPieces : ([[34, 92, 34], [97, 34]] : List Bytes) = pieces at cut
  have isByte {text rest : Bytes} {byte : UInt8}
      (isCut : ([34, 92, 34, 59, 97, 34] : Bytes) = text ++ byte :: rest) :
      ([34, 92, 34, 59, 97, 34] : Bytes)[text.length]? = some byte := by
    rw [isCut, List.getElem?_append_right (le_refl _), Nat.sub_self, List.getElem?_cons_zero]
  cases cut with
  | last isText isPart => cases isPart <;> cases isPieces
  | @separator text rest byte first others isText isPart isSeparator =>
      have isPlace := isByte isWhole
      have isTaken := congrArg (List.take text.length) isWhole
      rw [List.take_left] at isTaken
      generalize text.length = position at isPlace isTaken
      obtain rfl | isOther : position = 3 ∨ position ≠ 3 := eq_or_ne _ _
      · rw [← isTaken] at isText
        exact not_wellFormed_escape isText
      · have inRange : position < 6 := (List.getElem?_eq_some_iff.mp isPlace).1
        interval_cases position <;> cases isPlace <;> simp_all
  | @block text rest first others isText isPart isRest =>
      have isMember := List.mem_of_getElem? (isByte isWhole)
      revert isMember
      decide

/-- The text `"\";a"` is one string and is cut at its semicolon, and the group of
`("\")")` ends too early. -/
theorem not_always_splitting :
    ¬(∀ text, WellFormed AnyString text →
        ∃ pieces, splitStatements text = some pieces ∧ Cut text pieces) ∧
      ¬∀ inner rest, WellFormed AnyString inner →
        extractParen (40 :: (inner ++ 41 :: rest)) = some (inner, rest) := by
  have isString (body : Bytes) (isBody : LiteralBody 34 body) :
      WellFormed AnyString (34 :: (body ++ [34])) := .string (.inr rfl) isBody trivial .nil
  constructor
  · intro always
    obtain ⟨pieces, isSplit, cut⟩ := always _ (isString [92, 34, 59, 97]
      (.escape 34 (.byte (by decide) (by decide) (.byte (by decide) (by decide) .nil))))
    have isTwo : splitStatements [34, 92, 34, 59, 97, 34] = some [[34, 92, 34], [97, 34]] := by
      decide
    rw [List.cons_append, List.cons_append, List.cons_append, List.cons_append, List.nil_append,
      isTwo, Option.some.injEq] at isSplit
    subst isSplit
    exact not_cut_escape cut
  · intro always
    have isFound := always [34, 92, 34, 41, 34] []
      (isString [92, 34, 41] (.escape 34 (.byte (by decide) (by decide) .nil)))
    revert isFound
    decide

end Splitting
end Script
end MuonJs
