import MuonJs.Cache.Bytes
import MuonJs.Lib.Bisection

/-!
# Positions in the source text

The context keeps where the lines of the text under evaluation start, and finds the line
and the column of an error in that table.  A newline that is the last byte of the text
starts no line in the table; everywhere else the position is the one that counting
newlines gives.
-/

namespace MuonJs
namespace Script

open Cache (Bytes asBytes)

/-- The byte of a newline. -/
def newline : UInt8 := 10

/-- The fields of `Context` about the text that is evaluated. -/
structure SourceText where
  currentFilename : Bytes
  currentSource : Bytes
  currentLineStarts : List ℕ
  currentErrorOffset : Option ℕ
  currentStmtOffset : ℕ

namespace SourceText

/-- One turn of the scan for line starts: a newline starts a line behind it, unless it is
the last byte. -/
def scanByte (length : ℕ) (starts : List ℕ) (item : UInt8 × ℕ) : List ℕ :=
  if item.1 = newline then
    if item.2 + 1 < length then starts ++ [item.2 + 1] else starts
  else starts

/-- `Context::set_current_source`. -/
def setCurrentSource (ctx : SourceText) (filename source : Bytes) : SourceText :=
  { ctx with
    currentFilename := filename
    currentSource := source
    currentLineStarts := source.zipIdx.foldl (scanByte source.length) [0]
    currentErrorOffset := none
    currentStmtOffset := 0 }

/-- `Context::compute_line_col`; no result stands for an index out of range. -/
def computeLineCol (ctx : SourceText) (offset : ℕ) : Option (ℕ × ℕ) :=
  let last := min offset ctx.currentSource.length
  if ctx.currentLineStarts.isEmpty then some (1, last + 1)
  else
    match Bisection.bisect
        (fun mid => ctx.currentLineStarts[mid]?.map fun start => decide (start ≤ last))
        0 ctx.currentLineStarts.length with
    | none => none
    | some lo =>
        let lineIdx := lo - 1
        ctx.currentLineStarts[lineIdx]?.map fun lineStart =>
          (lineIdx + 1, last - lineStart + 1)

end SourceText

/-! ## Lines and columns -/

/-- The number of bytes behind the last newline. -/
def behindNewline (text : Bytes) : ℕ := (text.reverse.takeWhile (· ≠ newline)).length

/-- The line of an offset: one more than the newlines before it. -/
def lineAt (source : Bytes) (offset : ℕ) : ℕ := 1 + (source.take offset).count newline

/-- The column of an offset: one more than the bytes since the last newline before it. -/
def columnAt (source : Bytes) (offset : ℕ) : ℕ := 1 + behindNewline (source.take offset)

theorem behindNewline_append_newline (text : Bytes) : behindNewline (text ++ [newline]) = 0 := by
  rw [behindNewline, List.reverse_append, List.reverse_singleton, List.singleton_append,
    List.takeWhile_cons, if_neg (by simp)]
  rfl

theorem behindNewline_append_other (text : Bytes) {byte : UInt8} (isOther : byte ≠ newline) :
    behindNewline (text ++ [byte]) = behindNewline text + 1 := by
  rw [behindNewline, List.reverse_append, List.reverse_singleton, List.singleton_append,
    List.takeWhile_cons, if_pos (decide_eq_true isOther), List.length_cons]
  rfl

/-! ## The table of line starts -/

/-- Where the lines behind the newlines of a text start, for a text at a position. -/
def laterStarts : ℕ → Bytes → List ℕ
  | _, [] => []
  | position, byte :: rest =>
      if byte = newline then (position + 1) :: laterStarts (position + 1) rest
      else laterStarts (position + 1) rest

theorem laterStarts_append (position : ℕ) (front back : Bytes) :
    laterStarts position (front ++ back) =
      laterStarts position front ++ laterStarts (position + front.length) back := by
  induction front generalizing position with
  | nil => simp [laterStarts]
  | cons byte front ih =>
      rw [List.cons_append, laterStarts, laterStarts, ih, List.length_cons,
        show position + 1 + front.length = position + (front.length + 1) by omega]
      split
      · rw [List.cons_append]
      · rfl

theorem mem_laterStarts {position start : ℕ} {text : Bytes}
    (isStart : start ∈ laterStarts position text) :
    position < start ∧ start ≤ position + text.length := by
  induction text generalizing position with
  | nil => cases isStart
  | cons byte text ih =>
      rw [laterStarts] at isStart
      rw [List.length_cons]
      split at isStart
      · rcases List.mem_cons.mp isStart with rfl | isLater
        · omega
        · have bounds := ih isLater
          omega
      · have bounds := ih isStart
        omega

theorem length_laterStarts (position : ℕ) (text : Bytes) :
    (laterStarts position text).length = text.count newline := by
  induction text generalizing position with
  | nil => rfl
  | cons byte text ih =>
      rw [laterStarts]
      split
      · rename_i isNewline
        rw [List.length_cons, ih, isNewline, List.count_cons_self]
      · rename_i isOther
        rw [ih, List.count_cons_of_ne isOther]

/-- The last line of a text starts as many bytes before its end as stand behind the last
newline. -/
theorem getLast_laterStarts (text : Bytes) :
    ∃ start, (0 :: laterStarts 0 text)[(laterStarts 0 text).length]? = some start ∧
      start + behindNewline text = text.length := by
  induction text using List.reverseRecOn with
  | nil => exact ⟨0, rfl, rfl⟩
  | append_singleton text byte ih =>
      obtain ⟨start, isLast, isBehind⟩ := ih
      have isLength : (text ++ [byte]).length = text.length + 1 := List.length_append
      rw [laterStarts_append, isLength]
      by_cases isNewline : byte = newline
      · refine ⟨text.length + 1, ?_, ?_⟩
        · simp [laterStarts, isNewline]
        · rw [isNewline, behindNewline_append_newline]
      · refine ⟨start, ?_, ?_⟩
        · rw [laterStarts, if_neg isNewline, laterStarts, List.append_nil]
          exact isLast
        · rw [behindNewline_append_other text isNewline]
          omega

/-- The scan finds the lines behind all newlines but one that is the last byte. -/
theorem foldl_scanByte (starts : List ℕ) (position : ℕ) (text : Bytes) :
    (text.zipIdx position).foldl (SourceText.scanByte (position + text.length)) starts =
      starts ++ laterStarts position text.dropLast := by
  induction text generalizing starts position with
  | nil => exact (List.append_nil starts).symm
  | cons byte text ih =>
      rw [List.zipIdx_cons, List.foldl_cons, List.length_cons,
        show position + (text.length + 1) = position + 1 + text.length by omega, ih,
        SourceText.scanByte]
      cases text with
      | nil => simp [laterStarts]
      | cons next text =>
          have inside : position + 1 < position + 1 + (next :: text).length := by
            rw [List.length_cons]
            omega
          rw [List.dropLast_cons_cons, laterStarts, if_pos inside]
          split
          · rw [List.append_assoc, List.singleton_append]
          · rfl

namespace SourceText

theorem setCurrentSource_starts (ctx : SourceText) (filename source : Bytes) :
    (ctx.setCurrentSource filename source).currentLineStarts =
      0 :: laterStarts 0 source.dropLast := by
  have scanned := foldl_scanByte [0] 0 source
  rw [Nat.zero_add] at scanned
  exact scanned

/-! ## The position found -/

/-- The search gives the last line that the text without its last byte starts up to the
offset. -/
theorem computeLineCol_eq (ctx : SourceText) (filename source : Bytes) (offset : ℕ) :
    (ctx.setCurrentSource filename source).computeLineCol offset =
      some (lineAt source.dropLast offset,
        columnAt source.dropLast offset +
          (min offset source.length - (source.dropLast.take offset).length)) := by
  have isTable := ctx.setCurrentSource_starts filename source
  have isSource : (ctx.setCurrentSource filename source).currentSource = source := rfl
  set text := source.dropLast with isText
  set last := min offset source.length with isLastOffset
  obtain ⟨start, isLast, isBehind⟩ := getLast_laterStarts (text.take offset)
  have short : (text.take offset).length ≤ last := by
    rw [List.length_take, isText, List.length_dropLast]
    omega
  -- the starts up to the offset come first in the table
  have split : (0 :: laterStarts 0 text : List ℕ) =
      (0 :: laterStarts 0 (text.take offset)) ++
        laterStarts (text.take offset).length (text.drop offset) := by
    rw [List.cons_append]
    conv_lhs => rw [← List.take_append_drop offset text, laterStarts_append, Nat.zero_add]
  have holds : ∀ item ∈ 0 :: laterStarts 0 (text.take offset), decide (item ≤ last) = true := by
    intro item isItem
    rw [decide_eq_true_eq]
    rcases List.mem_cons.mp isItem with rfl | isLater
    · exact Nat.zero_le _
    · have bounds := mem_laterStarts isLater
      omega
  have fails : ∀ item ∈ laterStarts (text.take offset).length (text.drop offset),
      decide (item ≤ last) = false := by
    intro item isItem
    have bounds := mem_laterStarts isItem
    rw [decide_eq_false_iff_not]
    rw [List.length_take, List.length_drop] at bounds
    omega
  have found := Bisection.bisect_append holds fails
  rw [← split] at found
  rw [computeLineCol, isTable, isSource, if_neg (by simp), ← isLastOffset, found,
    List.length_cons]
  dsimp only
  rw [Nat.add_sub_cancel, split, List.getElem?_append_left (by simp), isLast, Option.map_some,
    length_laterStarts, lineAt, columnAt, Option.some.injEq, Prod.mk.injEq]
  omega

/-- The position found is the position of the offset unless the text ends with a newline
and the offset is behind it; the table has no line that starts there. -/
theorem computeLineCol_exact_iff (ctx : SourceText) (filename source : Bytes) (offset : ℕ) :
    (ctx.setCurrentSource filename source).computeLineCol offset =
        some (lineAt source offset, columnAt source offset) ↔
      ¬(source.getLast? = some newline ∧ source.length ≤ offset) := by
  rw [computeLineCol_eq]
  induction source using List.reverseRecOn with
  | nil => simp [lineAt, columnAt]
  | append_singleton source byte =>
      have isLength : (source ++ [byte]).length = source.length + 1 := List.length_append
      rw [List.dropLast_concat, List.getLast?_concat, isLength, Option.some.injEq, Prod.mk.injEq]
      by_cases isInside : offset ≤ source.length
      · have same : (source ++ [byte]).take offset = source.take offset :=
          List.take_append_of_le_length isInside
        have noMore : min offset (source.length + 1) - (source.take offset).length = 0 := by
          rw [List.length_take]
          omega
        rw [lineAt, lineAt, columnAt, columnAt, same, noMore]
        exact iff_of_true ⟨rfl, rfl⟩ fun atEnd => by omega
      · have isWhole : (source ++ [byte]).take offset = source ++ [byte] :=
          List.take_of_length_le (by omega)
        have isText : source.take offset = source := List.take_of_length_le (by omega)
        have oneMore : min offset (source.length + 1) - source.length = 1 := by omega
        rw [lineAt, lineAt, columnAt, columnAt, isWhole, isText, oneMore, List.count_append]
        by_cases isNewline : byte = newline
        · rw [isNewline, List.count_singleton_self]
          exact iff_of_false (fun same => by omega) fun notEnd => notEnd ⟨rfl, by omega⟩
        · rw [List.count_singleton, if_neg (by simpa using isNewline),
            behindNewline_append_other source isNewline]
          refine iff_of_true ⟨rfl, by omega⟩ fun atEnd => isNewline ?_
          exact Option.some.inj atEnd.1

/-- Behind the newline of `function\n` the line that it ends is reported. -/
theorem not_always_exact :
    ¬∀ (ctx : SourceText) (filename source : Bytes) (offset : ℕ),
      (ctx.setCurrentSource filename source).computeLineCol offset =
        some (lineAt source offset, columnAt source offset) := by
  intro always
  have found := always ⟨[], [], [], none, 0⟩ [] (asBytes "function\n") 9
  rw [computeLineCol_eq, Option.some.injEq, Prod.mk.injEq] at found
  have sameLine := found.1
  revert sameLine
  decide

end SourceText
end Script
end MuonJs
