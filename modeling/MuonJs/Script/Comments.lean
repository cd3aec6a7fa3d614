import MuonJs.Lib.Utf8
import MuonJs.Script.StatementText

/-!
# Comments become blanks

`strip_comments_checked` runs over a text once.  What it should find there is said
without a scanner: a text reads as a row of parts, which are strings, comments and
single bytes outside of both.  The scanner keeps the strings and the single bytes and
writes a blank for each byte of a comment, newlines apart.

Literals of regular expressions are no parts.  The slash that closes one opens a
comment when the byte behind it is a slash or a star.
-/

namespace MuonJs
namespace Script
namespace Walker

open Cache

/-- `strip_comments_checked` with its last step, which refuses bytes that are not a
text. -/
def stripComments (src : String) : Option String :=
  (stripCommentsChecked (asBytes src)).bind fromUtf8

/-! ## Parts of a text -/

/-- A piece of a text as its comments divide it. -/
inductive Part
  | code (byte : UInt8)
  | string (mark : UInt8) (body : Bytes)
  | unclosed (mark : UInt8) (body : Bytes)
  | line (body : Bytes)
  | block (body : Bytes)

namespace Part

/-- The text of a part. -/
def bytes : Part → Bytes
  | .code byte => [byte]
  | .string mark body => mark :: (body ++ [mark])
  | .unclosed mark body => mark :: body
  | .line body => 47 :: 47 :: body
  | .block body => 47 :: 42 :: (body ++ [42, 47])

end Part

/-- What stands in place of a byte of a comment. -/
def blank (byte : UInt8) : UInt8 := if byte = 10 then 10 else 32

namespace Part

/-- The text of a part when comments are blanks. -/
def cleaned : Part → Bytes
  | .line body => (Part.line body).bytes.map blank
  | .block body => (Part.block body).bytes.map blank
  | part => part.bytes

end Part

/-- A quote that opens strings. -/
def IsQuote (byte : UInt8) : Prop := byte = 39 ∨ byte = 34

/-- The contents of a string: a backslash takes the next byte with it. -/
inductive IsStringBody (mark : UInt8) : Bytes → Prop
  | nil : IsStringBody mark []
  | plain {byte : UInt8} {body : Bytes} (notMark : byte ≠ mark) (notEscape : byte ≠ 92)
      (isBody : IsStringBody mark body) : IsStringBody mark (byte :: body)
  | escape {byte : UInt8} {body : Bytes} (isBody : IsStringBody mark body) :
      IsStringBody mark (92 :: byte :: body)

/-- The contents of a string that the end of the text cuts off, maybe behind a
backslash. -/
def IsUnclosedBody (mark : UInt8) (bytes : Bytes) : Prop :=
  IsStringBody mark bytes ∨ ∃ body, IsStringBody mark body ∧ bytes = body ++ [92]

/-- A text reads as parts, up to a rest.  A line comment ends at a line feed alone, not at
a carriage return, U+2028 or U+2029. -/
inductive Reads : Bytes → List Part → Bytes → Prop
  | done (last : Bytes) : Reads last [] last
  | code {byte : UInt8} {rest last : Bytes} {parts : List Part} (noQuote : ¬IsQuote byte)
      (noComment : byte = 47 → rest.head? ≠ some 47 ∧ rest.head? ≠ some 42)
      (reads : Reads rest parts last) : Reads (byte :: rest) (.code byte :: parts) last
  | string {mark : UInt8} {body rest last : Bytes} {parts : List Part} (isQuote : IsQuote mark)
      (isBody : IsStringBody mark body) (reads : Reads rest parts last) :
      Reads (mark :: (body ++ mark :: rest)) (.string mark body :: parts) last
  | unclosed {mark : UInt8} {body : Bytes} (isQuote : IsQuote mark)
      (isBody : IsUnclosedBody mark body) :
      Reads (mark :: body) [.unclosed mark body] []
  | line {body rest last : Bytes} {parts : List Part} (noNewline : 10 ∉ body)
      (ends : rest = [] ∨ rest.head? = some 10) (reads : Reads rest parts last) :
      Reads (47 :: 47 :: (body ++ rest)) (.line body :: parts) last
  | block {body rest last : Bytes} {parts : List Part} (noEnd : ¬[42, 47] <:+: body ++ [42])
      (reads : Reads rest parts last) :
      Reads (47 :: 42 :: (body ++ 42 :: 47 :: rest)) (.block body :: parts) last

/-- A text that begins with a block comment which is not closed. -/
def IsOpenComment (bytes : Bytes) : Prop :=
  ∃ body, bytes = 47 :: 42 :: body ∧ ¬[42, 47] <:+: body

theorem Reads.bytes_eq {src last : Bytes} {parts : List Part} (reads : Reads src parts last) :
    src = parts.flatMap Part.bytes ++ last := by
  induction reads with
  | done => rfl
  | code _ _ _ hypothesis | string _ _ _ hypothesis | line _ _ _ hypothesis
  | block _ _ hypothesis => rw [hypothesis]; simp [Part.bytes]
  | unclosed => simp [Part.bytes]

/-! ## Every text reads as parts -/

theorem stringBody_or_unclosed (mark : UInt8) (bytes : Bytes) :
    (∃ body rest, bytes = body ++ mark :: rest ∧ IsStringBody mark body) ∨
      IsUnclosedBody mark bytes := by
  induction bytes using List.twoStepInduction with
  | nil => exact .inr (.inl .nil)
  | singleton byte =>
      by_cases isMark : byte = mark
      · exact .inl ⟨[], [], by rw [isMark]; rfl, .nil⟩
      by_cases isEscape : byte = 92
      · exact .inr (.inr ⟨[], .nil, by rw [isEscape]; rfl⟩)
      exact .inr (.inl (.plain isMark isEscape .nil))
  | cons_cons first second rest later next =>
      by_cases isMark : first = mark
      · exact .inl ⟨[], second :: rest, by rw [isMark]; rfl, .nil⟩
      by_cases isEscape : first = 92
      · subst isEscape
        obtain ⟨body, tail, same, isBody⟩ | isBody | ⟨body, isBody, same⟩ := later
        · exact .inl ⟨92 :: second :: body, tail, by rw [same]; rfl, .escape isBody⟩
        · exact .inr (.inl (.escape isBody))
        · exact .inr (.inr ⟨92 :: second :: body, .escape isBody, by rw [same]; rfl⟩)
      obtain ⟨body, tail, same, isBody⟩ | isBody | ⟨body, isBody, same⟩ := next second
      · exact .inl ⟨first :: body, tail, by rw [same]; rfl, .plain isMark isEscape isBody⟩
      · exact .inr (.inl (.plain isMark isEscape isBody))
      · exact .inr (.inr ⟨first :: body, .plain isMark isEscape isBody, by rw [same]; rfl⟩)

theorem line_split (bytes : Bytes) :
    ∃ body rest, bytes = body ++ rest ∧ 10 ∉ body ∧ (rest = [] ∨ rest.head? = some 10) := by
  induction bytes with
  | nil => exact ⟨[], [], rfl, List.not_mem_nil, .inl rfl⟩
  | cons byte rest hypothesis =>
      by_cases isNewline : byte = 10
      · exact ⟨[], byte :: rest, rfl, List.not_mem_nil, .inr (congrArg some isNewline)⟩
      obtain ⟨body, tail, same, noNewline, ends⟩ := hypothesis
      refine ⟨byte :: body, tail, by rw [same]; rfl, ?_, ends⟩
      rw [List.mem_cons, not_or]
      exact ⟨fun same => isNewline same.symm, noNewline⟩

/-- The end of a comment begins at a byte, or comes later. -/
theorem blockEnd_infix_cons (byte : UInt8) (rest : Bytes) :
    [42, 47] <:+: byte :: rest ↔
      byte = 42 ∧ rest.head? = some 47 ∨ [42, 47] <:+: rest := by
  rw [List.infix_cons_iff, List.cons_prefix_cons]
  cases rest with
  | nil => simp
  | cons next rest =>
      rw [List.cons_prefix_cons, List.head?_cons, Option.some_inj]
      simp only [List.nil_prefix, and_true, eq_comm]

theorem block_split (bytes : Bytes) :
    (∃ body rest, bytes = body ++ 42 :: 47 :: rest ∧ ¬[42, 47] <:+: body ++ [42]) ∨
      ¬[42, 47] <:+: bytes := by
  induction bytes with
  | nil => exact .inr (by simp)
  | cons byte rest hypothesis =>
      by_cases isEnd : byte = 42 ∧ rest.head? = some 47
      · obtain ⟨isStar, isSlash⟩ := isEnd
        obtain ⟨tail, same⟩ := List.head?_eq_some_iff.mp isSlash
        exact .inl ⟨[], tail, by rw [isStar, same]; rfl, by decide⟩
      obtain ⟨body, tail, same, noEnd⟩ | noEnd := hypothesis
      · refine .inl ⟨byte :: body, tail, by rw [same]; rfl, ?_⟩
        rw [List.cons_append, blockEnd_infix_cons, not_or]
        refine ⟨?_, noEnd⟩
        rintro ⟨isStar, isSlash⟩
        cases body with
        | nil => exact absurd isSlash (by decide)
        | cons next body =>
            refine isEnd ⟨isStar, ?_⟩
            rw [same]
            exact isSlash
      · refine .inr ?_
        rw [blockEnd_infix_cons, not_or]
        exact ⟨isEnd, noEnd⟩

/-- A text reads as parts, up to a block comment that is not closed. -/
theorem exists_reads (src : Bytes) :
    ∃ parts last, Reads src parts last ∧ (last = [] ∨ IsOpenComment last) := by
  induction bound : src.length using Nat.strong_induction_on generalizing src with
  | _ length hypothesis =>
      have shorter (rest : Bytes) (less : rest.length < src.length) :=
        hypothesis rest.length (bound ▸ less) rest rfl
      cases src with
      | nil => exact ⟨[], [], .done [], .inl rfl⟩
      | cons byte rest =>
          by_cases isQuote : IsQuote byte
          · obtain ⟨body, tail, same, isBody⟩ | isBody := stringBody_or_unclosed byte rest
            · have less : tail.length < (byte :: rest).length := by
                rw [same]
                simp only [List.length_cons, List.length_append]
                omega
              obtain ⟨parts, last, reads, ends⟩ := shorter tail less
              exact ⟨_, last, by rw [same]; exact .string isQuote isBody reads, ends⟩
            · exact ⟨_, [], .unclosed isQuote isBody, .inl rfl⟩
          by_cases isLine : byte = 47 ∧ rest.head? = some 47
          · obtain ⟨isSlash, next⟩ := isLine
            obtain ⟨after, same⟩ := List.head?_eq_some_iff.mp next
            obtain ⟨body, tail, split, noNewline, ends⟩ := line_split after
            have less : tail.length < (byte :: rest).length := by
              rw [same, split]
              simp only [List.length_cons, List.length_append]
              omega
            obtain ⟨parts, last, reads, lastEnds⟩ := shorter tail less
            exact ⟨_, last, by rw [isSlash, same, split]; exact .line noNewline ends reads, lastEnds⟩
          by_cases isBlock : byte = 47 ∧ rest.head? = some 42
          · obtain ⟨isSlash, next⟩ := isBlock
            obtain ⟨after, same⟩ := List.head?_eq_some_iff.mp next
            obtain ⟨body, tail, split, noEnd⟩ | noEnd := block_split after
            · have less : tail.length < (byte :: rest).length := by
                rw [same, split]
                simp only [List.length_cons, List.length_append]
                omega
              obtain ⟨parts, last, reads, lastEnds⟩ := shorter tail less
              exact ⟨_, last, by rw [isSlash, same, split]; exact .block noEnd reads, lastEnds⟩
            · exact ⟨[], _, .done _, .inr ⟨after, by rw [isSlash, same], noEnd⟩⟩
          · obtain ⟨parts, last, reads, ends⟩ := shorter rest (Nat.lt_succ_self _)
            exact ⟨_, last, .code isQuote (fun isSlash =>
              ⟨fun next => isLine ⟨isSlash, next⟩, fun next => isBlock ⟨isSlash, next⟩⟩) reads, ends⟩

/-! ## The scanner keeps to the parts -/

section Turns

variable (byte mark : UInt8) (rest : Bytes)

theorem codeTurn : stripCommentsFrom .code (byte :: rest) =
    if byte = 39 ∨ byte = 34 then
      (stripCommentsFrom (.string byte false) rest).map (byte :: ·)
    else if byte = 47 ∧ rest.head? = some 47 then
      (stripCommentsFrom .lineStart rest).map (32 :: ·)
    else if byte = 47 ∧ rest.head? = some 42 then
      (stripCommentsFrom .blockStart rest).map (32 :: ·)
    else (stripCommentsFrom .code rest).map (byte :: ·) := rfl

theorem escapedTurn : stripCommentsFrom (.string mark true) (byte :: rest) =
    (stripCommentsFrom (.string mark false) rest).map ([byte] ++ ·) := rfl

theorem stringTurn : stripCommentsFrom (.string mark false) (byte :: rest) =
    if byte = 92 then (stripCommentsFrom (.string mark true) rest).map ([byte] ++ ·)
    else if byte = mark then (stripCommentsFrom .code rest).map ([byte] ++ ·)
    else (stripCommentsFrom (.string mark false) rest).map ([byte] ++ ·) := rfl

theorem lineStartTurn : stripCommentsFrom .lineStart (byte :: rest) =
    (stripCommentsFrom .line rest).map ([32] ++ ·) := rfl

theorem lineTurn : stripCommentsFrom .line (byte :: rest) =
    if byte = 10 then (stripCommentsFrom .code rest).map ([10] ++ ·)
    else (stripCommentsFrom .line rest).map ([32] ++ ·) := rfl

theorem blockStartTurn : stripCommentsFrom .blockStart (byte :: rest) =
    (stripCommentsFrom .block rest).map ([32] ++ ·) := rfl

theorem blockTurn : stripCommentsFrom .block (byte :: rest) =
    if byte = 42 ∧ rest.head? = some 47 then
      (stripCommentsFrom .blockEnd rest).map ([32] ++ ·)
    else (stripCommentsFrom .block rest).map ([blank byte] ++ ·) := rfl

theorem blockEndTurn : stripCommentsFrom .blockEnd (byte :: rest) =
    (stripCommentsFrom .code rest).map ([32] ++ ·) := rfl

end Turns

theorem stripCommentsFrom_code {byte : UInt8} {rest : Bytes} (noQuote : ¬IsQuote byte)
    (noComment : byte = 47 → rest.head? ≠ some 47 ∧ rest.head? ≠ some 42) :
    stripCommentsFrom .code (byte :: rest) =
      (stripCommentsFrom .code rest).map ([byte] ++ ·) := by
  have outside : ¬(byte = 39 ∨ byte = 34) := noQuote
  rw [codeTurn, if_neg outside, if_neg (fun both => (noComment both.1).1 both.2),
    if_neg (fun both => (noComment both.1).2 both.2)]
  rfl

/-- Two scans one behind the other write both texts. -/
theorem map_append_map (left right : Bytes) (result : Option Bytes) :
    (result.map (right ++ ·)).map (left ++ ·) = result.map ((left ++ right) ++ ·) := by
  cases result with
  | none => rfl
  | some bytes => exact congrArg some (List.append_assoc _ _ _).symm

theorem map_nil_append (result : Option Bytes) : result.map (([] : Bytes) ++ ·) = result := by
  cases result with
  | none => rfl
  | some _ => rfl

theorem stripCommentsFrom_quote {mark : UInt8} (isQuote : IsQuote mark) (rest : Bytes) :
    stripCommentsFrom .code (mark :: rest) =
      (stripCommentsFrom (.string mark false) rest).map ([mark] ++ ·) := by
  have opens : mark = 39 ∨ mark = 34 := isQuote
  rw [codeTurn, if_pos opens]
  rfl

theorem stripCommentsFrom_lineMark (rest : Bytes) :
    stripCommentsFrom .code (47 :: 47 :: rest) =
      (stripCommentsFrom .line rest).map ([32, 32] ++ ·) := by
  rw [codeTurn, if_neg (by decide), if_pos ⟨rfl, rfl⟩, lineStartTurn]
  exact map_append_map [32] [32] _

theorem stripCommentsFrom_blockMark (rest : Bytes) :
    stripCommentsFrom .code (47 :: 42 :: rest) =
      (stripCommentsFrom .block rest).map ([32, 32] ++ ·) := by
  have notLine : ¬((47 : UInt8) = 47 ∧ ((42 :: rest : Bytes).head? = some 47)) :=
    fun both => absurd (Option.some.inj both.2) (by decide)
  rw [codeTurn, if_neg (by decide), if_neg notLine, if_pos ⟨rfl, rfl⟩, blockStartTurn]
  exact map_append_map [32] [32] _

theorem stripCommentsFrom_string {mark : UInt8} {body : Bytes} (notEscape : mark ≠ 92)
    (isBody : IsStringBody mark body) (rest : Bytes) :
    stripCommentsFrom (.string mark false) (body ++ mark :: rest) =
      (stripCommentsFrom .code rest).map ((body ++ [mark]) ++ ·) := by
  induction isBody with
  | nil =>
      rw [List.nil_append, stringTurn, if_neg notEscape, if_pos rfl]
      rfl
  | @plain byte body notMark plain _ hypothesis =>
      rw [List.cons_append, stringTurn, if_neg plain, if_neg notMark, hypothesis]
      exact map_append_map [byte] _ _
  | @escape byte body _ hypothesis =>
      rw [List.cons_append, List.cons_append, stringTurn, if_pos rfl, escapedTurn, hypothesis,
        map_append_map, map_append_map]
      rfl

theorem stripCommentsFrom_unclosed {mark : UInt8} {bytes : Bytes}
    (isBody : IsUnclosedBody mark bytes) :
    stripCommentsFrom (.string mark false) bytes = some bytes := by
  have keeps (body tail : Bytes) (isBody : IsStringBody mark body)
      (onTail : stripCommentsFrom (.string mark false) tail = some tail) :
      stripCommentsFrom (.string mark false) (body ++ tail) = some (body ++ tail) := by
    induction isBody with
    | nil => exact onTail
    | plain notMark plain _ hypothesis =>
        rw [List.cons_append, stringTurn, if_neg plain, if_neg notMark, hypothesis]
        rfl
    | escape _ hypothesis =>
        rw [List.cons_append, List.cons_append, stringTurn, if_pos rfl, escapedTurn, hypothesis]
        rfl
  obtain isBody | ⟨body, isBody, rfl⟩ := isBody
  · have kept := keeps bytes [] isBody rfl
    rwa [List.append_nil] at kept
  · exact keeps body [92] isBody rfl

theorem notQuote_newline : ¬IsQuote 10 := by
  rintro (same | same)
  · exact absurd same (by decide)
  · exact absurd same (by decide)

theorem stripCommentsFrom_line {body rest : Bytes} (noNewline : 10 ∉ body)
    (ends : rest = [] ∨ rest.head? = some 10) :
    stripCommentsFrom .line (body ++ rest) =
      (stripCommentsFrom .code rest).map (body.map blank ++ ·) := by
  induction body with
  | nil =>
      obtain rfl | newline := ends
      · rfl
      obtain ⟨tail, rfl⟩ := List.head?_eq_some_iff.mp newline
      rw [stripCommentsFrom_code notQuote_newline (fun same => absurd same (by decide)),
        List.nil_append, lineTurn, if_pos rfl]
      exact (map_append_map [] [10] _).symm
  | cons byte body hypothesis =>
      rw [List.mem_cons, not_or] at noNewline
      have notNewline : byte ≠ 10 := fun same => noNewline.1 same.symm
      rw [List.cons_append, lineTurn, if_neg notNewline, hypothesis noNewline.2, List.map_cons, blank, if_neg notNewline]
      exact map_append_map [32] _ _

theorem stripCommentsFrom_block {body : Bytes} (noEnd : ¬[42, 47] <:+: body ++ [42])
    (rest : Bytes) :
    stripCommentsFrom .block (body ++ 42 :: 47 :: rest) =
      (stripCommentsFrom .code rest).map ((body ++ [42, 47]).map blank ++ ·) := by
  induction body with
  | nil =>
      rw [List.nil_append, blockTurn, if_pos ⟨rfl, rfl⟩, blockEndTurn]
      exact map_append_map [32] [32] _
  | cons byte body hypothesis =>
      rw [List.cons_append, blockEnd_infix_cons, not_or] at noEnd
      have notEnd : ¬(byte = 42 ∧ (body ++ 42 :: 47 :: rest).head? = some 47) := by
        rintro ⟨isStar, isSlash⟩
        cases body with
        | nil => exact absurd isSlash (by simp)
        | cons next body => exact noEnd.1 ⟨isStar, isSlash⟩
      rw [List.cons_append, blockTurn, if_neg notEnd, hypothesis noEnd.2]
      exact map_append_map [blank byte] _ _

theorem stripCommentsFrom_open {body : Bytes} (noEnd : ¬[42, 47] <:+: body) :
    stripCommentsFrom .block body = none := by
  induction body with
  | nil => rfl
  | cons byte body hypothesis =>
      rw [blockEnd_infix_cons, not_or] at noEnd
      rw [blockTurn, if_neg noEnd.1, hypothesis noEnd.2]
      rfl

theorem IsQuote.ne_escape {byte : UInt8} (isQuote : IsQuote byte) : byte ≠ 92 := by
  obtain rfl | rfl := isQuote
  · decide
  · decide

/-- What the scanner writes for the parts that a text reads as. -/
theorem stripCommentsFrom_reads {src last : Bytes} {parts : List Part}
    (reads : Reads src parts last) :
    stripCommentsFrom .code src =
      (stripCommentsFrom .code last).map (parts.flatMap Part.cleaned ++ ·) := by
  induction reads with
  | done last => exact (map_nil_append _).symm
  | @code byte rest last parts noQuote noComment _ hypothesis =>
      rw [stripCommentsFrom_code noQuote noComment, hypothesis]
      exact map_append_map _ _ _
  | @string mark body rest last parts isQuote isBody _ hypothesis =>
      rw [stripCommentsFrom_quote isQuote, stripCommentsFrom_string isQuote.ne_escape isBody,
        hypothesis, map_append_map, map_append_map, List.flatMap_cons]
      rfl
  | @unclosed mark body isQuote isBody =>
      rw [stripCommentsFrom_quote isQuote, stripCommentsFrom_unclosed isBody,
        List.flatMap_singleton]
      exact congrArg some (List.append_nil (mark :: body)).symm
  | @line body rest last parts noNewline ends _ hypothesis =>
      rw [stripCommentsFrom_lineMark, stripCommentsFrom_line noNewline ends, hypothesis,
        map_append_map, map_append_map, List.flatMap_cons]
      rfl
  | @block body rest last parts noEnd _ hypothesis =>
      rw [stripCommentsFrom_blockMark, stripCommentsFrom_block noEnd, hypothesis,
        map_append_map, map_append_map, List.flatMap_cons]
      rfl

theorem stripCommentsFrom_isOpenComment {last : Bytes} (isOpen : IsOpenComment last) :
    stripCommentsFrom .code last = none := by
  obtain ⟨body, rfl, noEnd⟩ := isOpen
  rw [stripCommentsFrom_blockMark, stripCommentsFrom_open noEnd]
  rfl

/-! ## The same again -/

/-- Bytes that are neither quotes nor the begin of a comment are kept. -/
theorem stripCommentsFrom_plain {bytes rest : Bytes} (noQuote : ∀ byte ∈ bytes, ¬IsQuote byte)
    (noLine : ¬[47, 47] <:+: bytes ++ rest.take 1) (noBlock : ¬[47, 42] <:+: bytes ++ rest.take 1) :
    stripCommentsFrom .code (bytes ++ rest) =
      (stripCommentsFrom .code rest).map (bytes ++ ·) := by
  induction bytes with
  | nil => exact (map_nil_append _).symm
  | cons byte bytes hypothesis =>
      have head : (bytes ++ rest).head? = (bytes ++ rest.take 1).head? := by
        cases bytes with
        | nil =>
            cases rest with
            | nil => rfl
            | cons _ _ => rfl
        | cons _ _ => rfl
      have later (mark : UInt8) (absent : ¬[47, mark] <:+: byte :: (bytes ++ rest.take 1)) :
          ¬[47, mark] <:+: bytes ++ rest.take 1 :=
        fun isInfix => absent (isInfix.trans (List.suffix_cons _ _).isInfix)
      have here (mark : UInt8) (absent : ¬[47, mark] <:+: byte :: (bytes ++ rest.take 1))
          (isSlash : byte = 47) : (bytes ++ rest).head? ≠ some mark := by
        intro next
        rw [head] at next
        obtain ⟨tail, same⟩ := List.head?_eq_some_iff.mp next
        exact absent ⟨[], tail, by rw [same, isSlash]; rfl⟩
      rw [List.cons_append,
        stripCommentsFrom_code (noQuote byte List.mem_cons_self)
          (fun isSlash => ⟨here 47 noLine isSlash, here 42 noBlock isSlash⟩),
        hypothesis (fun _ isByte => noQuote _ (List.mem_cons_of_mem _ isByte)) (later 47 noLine)
          (later 42 noBlock)]
      exact map_append_map [byte] _ _

theorem blank_eq (byte : UInt8) : blank byte = 10 ∨ blank byte = 32 := by
  rw [blank]
  split
  · exact .inl rfl
  · exact .inr rfl

theorem stripCommentsFrom_blanks (bytes rest : Bytes) :
    stripCommentsFrom .code (bytes.map blank ++ rest) =
      (stripCommentsFrom .code rest).map (bytes.map blank ++ ·) := by
  induction bytes with
  | nil => exact (map_nil_append _).symm
  | cons byte bytes hypothesis =>
      have noQuote : ¬IsQuote (blank byte) := by
        obtain same | same := blank_eq byte
        · rw [same]
          exact notQuote_newline
        · rw [same]
          rintro (same | same)
          · exact absurd same (by decide)
          · exact absurd same (by decide)
      have notSlash : blank byte ≠ 47 := by
        obtain same | same := blank_eq byte
        · rw [same]
          decide
        · rw [same]
          decide
      rw [List.map_cons, List.cons_append,
        stripCommentsFrom_code noQuote (fun same => absurd same notSlash), hypothesis]
      exact map_append_map [blank byte] _ _

/-- A text without its comments begins with a blank or as it did. -/
theorem Reads.head?_cleaned {src last : Bytes} {parts : List Part} (reads : Reads src parts last)
    (atEnd : last = []) (mark : UInt8) (notBlank : mark ≠ 32)
    (isHead : (parts.flatMap Part.cleaned).head? = some mark) : src.head? = some mark := by
  cases reads with
  | done =>
      subst atEnd
      exact isHead
  | code _ _ _ => exact isHead
  | string _ _ _ => exact isHead
  | unclosed _ _ => exact isHead
  | line _ _ _ => exact absurd (Option.some.inj isHead).symm notBlank
  | block _ _ => exact absurd (Option.some.inj isHead).symm notBlank

/-- A text without its comments has none. -/
theorem stripCommentsFrom_cleaned {src last : Bytes} {parts : List Part}
    (reads : Reads src parts last) (atEnd : last = []) :
    stripCommentsFrom .code (parts.flatMap Part.cleaned) =
      some (parts.flatMap Part.cleaned) := by
  induction reads with
  | done last => rfl
  | @code byte rest last parts noQuote noComment later hypothesis =>
      have kept : byte = 47 → (parts.flatMap Part.cleaned).head? ≠ some 47 ∧
          (parts.flatMap Part.cleaned).head? ≠ some 42 := by
        intro isSlash
        exact ⟨fun next =>
            (noComment isSlash).1 (later.head?_cleaned atEnd 47 (by decide) next),
          fun next => (noComment isSlash).2 (later.head?_cleaned atEnd 42 (by decide) next)⟩
      rw [List.flatMap_cons, Part.cleaned, Part.bytes]
      · rw [List.singleton_append, stripCommentsFrom_code noQuote kept, hypothesis atEnd]
        rfl
      all_goals simp
  | @string mark body rest last parts isQuote isBody _ hypothesis =>
      have same : (Part.string mark body :: parts).flatMap Part.cleaned =
          mark :: (body ++ mark :: parts.flatMap Part.cleaned) := by
        simp [Part.cleaned, Part.bytes]
      rw [same, stripCommentsFrom_quote isQuote,
        stripCommentsFrom_string isQuote.ne_escape isBody, hypothesis atEnd]
      simp
  | @unclosed mark body isQuote isBody =>
      have same : [Part.unclosed mark body].flatMap Part.cleaned = mark :: body := by
        simp [Part.cleaned, Part.bytes]
      rw [same, stripCommentsFrom_quote isQuote, stripCommentsFrom_unclosed isBody]
      rfl
  | @line _ _ _ _ _ _ _ hypothesis | @block _ _ _ _ _ _ hypothesis =>
      rw [List.flatMap_cons, Part.cleaned, stripCommentsFrom_blanks, hypothesis atEnd]
      rfl

/-! ## Lengths, newlines and characters -/

theorem blank_eq_newline_iff (byte : UInt8) : blank byte = 10 ↔ byte = 10 := by
  rw [blank]
  split
  · rename_i isNewline
    exact iff_of_true rfl isNewline
  · rename_i notNewline
    exact iff_of_false (by decide) notNewline

namespace Part

/-- Byte for byte, a part without comments is as long and has the same newlines. -/
theorem forall₂_cleaned (part : Part) :
    List.Forall₂ (fun left right => left = 10 ↔ right = 10) part.cleaned part.bytes := by
  have blanks (bytes : Bytes) :
      List.Forall₂ (fun left right => left = 10 ↔ right = 10) (bytes.map blank) bytes := by
    rw [List.forall₂_map_left_iff]
    exact List.forall₂_same.mpr fun byte _ => blank_eq_newline_iff byte
  have same (bytes : Bytes) :
      List.Forall₂ (fun left right : UInt8 => left = 10 ↔ right = 10) bytes bytes :=
    List.forall₂_same.mpr fun _ _ => Iff.rfl
  cases part with
  | code byte => exact same _
  | string mark body => exact same _
  | unclosed mark body => exact same _
  | line body => exact blanks _
  | block body => exact blanks _

end Part

theorem forall₂_flatMap_cleaned (parts : List Part) :
    List.Forall₂ (fun left right => left = 10 ↔ right = 10) (parts.flatMap Part.cleaned)
      (parts.flatMap Part.bytes) := by
  induction parts with
  | nil => exact .nil
  | cons part parts hypothesis =>
      exact List.rel_append part.forall₂_cleaned hypothesis

theorem getElem?_newline_iff {left right : Bytes}
    (both : List.Forall₂ (fun left right => left = 10 ↔ right = 10) left right) (index : ℕ) :
    left[index]? = some 10 ↔ right[index]? = some 10 := by
  induction both generalizing index with
  | nil => exact Iff.rfl
  | cons same _ hypothesis =>
      cases index with
      | zero =>
          rw [List.getElem?_cons_zero, List.getElem?_cons_zero, Option.some_inj, Option.some_inj]
          exact same
      | succ index =>
          rw [List.getElem?_cons_succ, List.getElem?_cons_succ]
          exact hypothesis index

theorem isUtf8_blanks (bytes : Bytes) : IsUtf8 (bytes.map blank) := by
  refine isUtf8_ascii fun byte isByte => ?_
  obtain ⟨origin, -, rfl⟩ := List.mem_map.mp isByte
  obtain same | same := blank_eq origin
  · rw [same]
    decide
  · rw [same]
    decide

/-- A text without its comments is a text, also with a part of it before. -/
theorem Reads.isUtf8_cleaned {src last : Bytes} {parts : List Part} (reads : Reads src parts last)
    (atEnd : last = []) (before : Bytes) (isText : IsUtf8 (before ++ src)) :
    IsUtf8 (before ++ parts.flatMap Part.cleaned) := by
  induction reads generalizing before with
  | done =>
      subst atEnd
      exact isText
  | @code byte rest last parts _ _ _ hypothesis =>
      have moved := hypothesis atEnd (before ++ [byte]) (by rwa [List.append_assoc])
      rwa [List.append_assoc] at moved
  | @string mark body rest last parts _ _ _ hypothesis =>
      have moved := hypothesis atEnd (before ++ mark :: (body ++ [mark]))
        (by rwa [List.append_assoc, List.cons_append, List.append_assoc])
      rwa [List.append_assoc] at moved
  | @unclosed mark body =>
      rw [List.flatMap_singleton]
      exact isText
  | @line body rest last parts _ ends _ hypothesis =>
      obtain ⟨isBefore, isRest⟩ := isText.split (by decide)
      obtain ⟨-, isRest⟩ := @IsUtf8.split [] _ _ isRest (by decide)
      have atCode : IsUtf8 rest := by
        obtain rfl | newline := ends
        · exact isUtf8_nil
        obtain ⟨tail, rfl⟩ := List.head?_eq_some_iff.mp newline
        obtain ⟨-, isTail⟩ := isRest.split (by decide)
        exact @IsUtf8.append [10] tail (isUtf8_blanks [10]) isTail
      exact isBefore.append ((isUtf8_blanks _).append (hypothesis atEnd [] atCode))
  | @block body rest last parts _ _ hypothesis =>
      obtain ⟨isBefore, isRest⟩ := isText.split (by decide)
      obtain ⟨-, isRest⟩ := @IsUtf8.split [] _ _ isRest (by decide)
      obtain ⟨-, isRest⟩ := isRest.split (by decide)
      obtain ⟨-, isRest⟩ := @IsUtf8.split [] _ _ isRest (by decide)
      exact isBefore.append ((isUtf8_blanks _).append (hypothesis atEnd [] isRest))

/-! ## Exactness -/

theorem stripCommentsFrom_nil : stripCommentsFrom .code [] = some [] := rfl

theorem stripComments_eq (src : String) :
    stripComments src = (stripCommentsFrom .code (asBytes src)).bind fromUtf8 := rfl

/-- Without an open comment the scanner answers the text with its comments blanked. -/
theorem stripComments_of_reads {src : String} {parts : List Part}
    (reads : Reads (asBytes src) parts []) :
    ∃ out, stripComments src = some out ∧ asBytes out = parts.flatMap Part.cleaned := by
  have isText : IsUtf8 (asBytes src) :=
    ⟨src.toList, by rw [← asBytes_ofList, String.ofList_toList]⟩
  obtain ⟨chars, same⟩ := reads.isUtf8_cleaned rfl [] isText
  rw [List.nil_append] at same
  refine ⟨String.ofList chars, ?_, (asBytes_ofList chars).trans same.symm⟩
  rw [stripComments_eq, stripCommentsFrom_reads reads, stripCommentsFrom_nil, Option.map_some,
    Option.bind_some, List.append_nil, same]
  exact fromUtf8_encode chars

/-- The answer to a text with an open comment. -/
theorem stripComments_of_isOpenComment {src : String} {parts : List Part} {last : Bytes}
    (reads : Reads (asBytes src) parts last) (isOpen : IsOpenComment last) :
    stripComments src = none := by
  rw [stripComments_eq, stripCommentsFrom_reads reads, stripCommentsFrom_isOpenComment isOpen]
  rfl

/-- Every byte outside of comments is as it was, and comments are blanks. -/
def IsCleaned (src out : Bytes) : Prop :=
  ∃ parts, Reads src parts [] ∧ src = parts.flatMap Part.bytes ∧
    out = parts.flatMap Part.cleaned

/-- A byte pair that a scanner for comments takes for the begin of one. -/
def HasCommentMark (bytes : Bytes) : Prop := [47, 47] <:+: bytes ∨ [47, 42] <:+: bytes

instance (bytes : Bytes) : Decidable (HasCommentMark bytes) :=
  inferInstanceAs (Decidable (_ ∨ _))

/-- The answer is an error exactly for an open block comment.  Any other answer is the
text with its comments blanked, has the length and the newlines of the text and is not
changed by a second run; a text without quotes that begins outside of strings and comments
stands in it when it has no mark of a comment, the byte behind it included. -/
theorem stripComments_exact (src : String) :
    (stripComments src = none ↔
      ∃ parts last, Reads (asBytes src) parts last ∧ IsOpenComment last) ∧
    ∀ out, stripComments src = some out →
      IsCleaned (asBytes src) (asBytes out) ∧
      (asBytes out).length = (asBytes src).length ∧
      (∀ index : ℕ, (asBytes out)[index]? = some 10 ↔ (asBytes src)[index]? = some 10) ∧
      stripComments out = some out ∧
      ∀ parts literal after, Reads (asBytes src) parts (literal ++ after) →
        (∀ byte ∈ literal, ¬IsQuote byte) → ¬HasCommentMark (literal ++ after.take 1) →
        ∃ cleaned, asBytes out = parts.flatMap Part.cleaned ++ literal ++ cleaned := by
  obtain ⟨parts, last, reads, rfl | isOpen⟩ := exists_reads (asBytes src)
  · obtain ⟨out, answer, written⟩ := stripComments_of_reads reads
    constructor
    · rw [answer]
      refine iff_of_false (Option.some_ne_none _) ?_
      rintro ⟨parts, last, reads, isOpen⟩
      rw [stripComments_of_isOpenComment reads isOpen] at answer
      cases answer
    intro found isAnswer
    rw [answer] at isAnswer
    cases isAnswer
    have same : asBytes src = parts.flatMap Part.bytes := by
      rw [reads.bytes_eq, List.append_nil]
    have aligned := forall₂_flatMap_cleaned parts
    rw [← written, ← same] at aligned
    refine ⟨⟨parts, reads, same, written⟩, aligned.length_eq, getElem?_newline_iff aligned, ?_, ?_⟩
    · rw [stripComments_eq, written, stripCommentsFrom_cleaned reads rfl, Option.bind_some,
        ← written, fromUtf8_asBytes]
    · intro before literal after begins noQuote noMark
      have scanned := stripCommentsFrom_reads begins
      rw [stripCommentsFrom_plain noQuote (fun isInfix => noMark (.inl isInfix))
        (fun isInfix => noMark (.inr isInfix)), map_append_map, stripCommentsFrom_reads reads,
        stripCommentsFrom_nil, Option.map_some, List.append_nil, ← written] at scanned
      obtain ⟨cleaned, -, isOut⟩ := Option.map_eq_some_iff.mp scanned.symm
      exact ⟨cleaned, isOut.symm⟩
  · have answer := stripComments_of_isOpenComment reads isOpen
    constructor
    · exact iff_of_true answer ⟨parts, last, reads, isOpen⟩
    · intro out isAnswer
      rw [answer] at isAnswer
      cases isAnswer

/-- A byte that a literal of a regular expression may have anywhere. -/
def IsRegexByte (byte : UInt8) : Prop := byte ≠ 10 ∧ byte ≠ 13 ∧ byte ≠ 92

instance (byte : UInt8) : Decidable (IsRegexByte byte) := inferInstanceAs (Decidable (_ ∧ _))

/-- The body of a literal of a regular expression: a backslash takes the next byte with
it, and in a class the slash is a byte as any other. -/
inductive IsRegexBody : Bool → Bytes → Prop
  | nil : IsRegexBody false []
  | plain {byte : UInt8} {body : Bytes} (isByte : IsRegexByte byte) (notSlash : byte ≠ 47)
      (notClass : byte ≠ 91) (isBody : IsRegexBody false body) :
      IsRegexBody false (byte :: body)
  | escape {inClass : Bool} {byte : UInt8} {body : Bytes} (isByte : byte ≠ 10 ∧ byte ≠ 13)
      (isBody : IsRegexBody inClass body) : IsRegexBody inClass (92 :: byte :: body)
  | opens {body : Bytes} (isBody : IsRegexBody true body) : IsRegexBody false (91 :: body)
  | member {byte : UInt8} {body : Bytes} (isByte : IsRegexByte byte) (notEnd : byte ≠ 93)
      (isBody : IsRegexBody true body) : IsRegexBody true (byte :: body)
  | closes {body : Bytes} (isBody : IsRegexBody false body) : IsRegexBody true (93 :: body)

/-- A literal of a regular expression: a body that is not empty and does not begin with a
star between slashes, and its flags. -/
def IsRegexLiteral (literal : Bytes) : Prop :=
  ∃ body flags, literal = 47 :: (body ++ 47 :: flags) ∧ IsRegexBody false body ∧ body ≠ [] ∧
    body.head? ≠ some 42 ∧ ∀ byte ∈ flags, isWordByte byte = true

/-- The slash that closes a literal opens a comment before a second slash. -/
theorem stripComments_alters_regex :
    ¬∀ (src out : String) (parts : List Part) (literal after : Bytes),
      Reads (asBytes src) parts (literal ++ after) → IsRegexLiteral literal →
      (∀ byte ∈ literal, ¬IsQuote byte) → ¬HasCommentMark literal →
      stripComments src = some out →
      ∃ cleaned, asBytes out = parts.flatMap Part.cleaned ++ literal ++ cleaned := by
  intro kept
  have source : asBytes "/a//2" = [47, 97, 47, 47, 50] := by decide
  have isLiteral : IsRegexLiteral [47, 97, 47] :=
    ⟨[97], [], rfl, .plain (by decide) (by decide) (by decide) .nil, by decide, by decide,
      fun _ absent => absurd absent List.not_mem_nil⟩
  have noQuote : ∀ byte ∈ ([47, 97, 47] : Bytes), ¬IsQuote byte := by
    intro byte isByte
    simp only [List.mem_cons, List.not_mem_nil, or_false] at isByte
    obtain rfl | rfl | rfl := isByte
    all_goals exact not_or.mpr ⟨by decide, by decide⟩
  have answer : stripComments "/a//2" = some "/a   " := by
    rw [stripComments_eq, source]
    decide
  obtain ⟨cleaned, same⟩ := kept "/a//2" "/a   " [] [47, 97, 47] [47, 50]
    (source ▸ .done _) isLiteral noQuote (by decide) answer
  have written : asBytes "/a   " = [47, 97, 32, 32, 32] := by decide
  rw [written] at same
  simp at same

end Walker
end Script
end MuonJs
