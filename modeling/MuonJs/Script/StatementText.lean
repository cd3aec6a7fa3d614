import MuonJs.Script.Text

/-!
# Statements as text

The tree walker keeps no syntax tree: it cuts the text of a statement into pieces
each time it evaluates the statement.  Here are the scanners it uses, and the
form that a statement has by its first bytes.

A position is the index of a byte.  All delimiters are ASCII, so the cuts fall
between characters.
-/

namespace MuonJs
namespace Script
namespace Walker

open Cache (Bytes asBytes isAsciiDigit)

/-! ## Quotes -/

/-- The step of a scanner in which a string ends at the next such quote: none when
the byte is outside of strings and opens none. -/
def plainQuote (quote : Option UInt8) (byte : UInt8) : Option (Option UInt8) :=
  match quote with
  | some mark => some (if byte = mark then none else some mark)
  | none => if byte = 39 ∨ byte = 34 then some (some byte) else none

/-- The step of a scanner in which a backslash hides the next byte of a string. -/
def escapedQuote (marks : Bytes) (quote : Option (UInt8 × Bool)) (byte : UInt8) :
    Option (Option (UInt8 × Bool)) :=
  match quote with
  | some (mark, true) => some (some (mark, false))
  | some (mark, false) =>
      some (if byte = mark then none else some (mark, byte = 92))
  | none => if byte ∈ marks then some (some (byte, false)) else none

/-- An opening parenthesis, bracket or brace. -/
def isOpening (byte : UInt8) : Bool := byte = 40 || byte = 91 || byte = 123

/-- A closing parenthesis, bracket or brace. -/
def isClosing (byte : UInt8) : Bool := byte = 41 || byte = 93 || byte = 125

/-- The depth after a byte outside of strings. -/
def depthAfter (depth : ℤ) (byte : UInt8) : ℤ :=
  if isOpening byte then depth + 1 else if isClosing byte then depth - 1 else depth

/-- `str::starts_with`. -/
def startsWith (literal : String) (text : Bytes) : Bool := (asBytes literal).isPrefixOf text

/-- The text starts with the keyword and a space, or the keyword and the byte. -/
def startsWithKeyword (keyword : String) (byte : UInt8) (text : Bytes) : Bool :=
  (asBytes keyword ++ [32]).isPrefixOf text || (asBytes keyword ++ [byte]).isPrefixOf text

/-- The text after the keyword that starts it: a space is skipped, the byte is not. -/
def afterKeyword (keyword : String) (byte : UInt8) (text : Bytes) : Option Bytes :=
  if (asBytes keyword ++ [32]).isPrefixOf text then
    some (text.drop ((asBytes keyword).length + 1))
  else if (asBytes keyword ++ [byte]).isPrefixOf text then
    some (text.drop (asBytes keyword).length)
  else none

/-! ## Identifiers -/

/-- `is_ident_start` of the statement parser. -/
def isIdentStart (byte : UInt8) : Bool :=
  (65 ≤ byte && byte ≤ 90) || (97 ≤ byte && byte ≤ 122) || byte = 95

/-- `parse_identifier`. -/
def parseIdentifier : Bytes → Option (Bytes × Bytes)
  | [] => none
  | first :: rest =>
      if isIdentStart first then
        some (first :: rest.takeWhile fun byte => isIdentStart byte || isAsciiDigit byte,
          rest.dropWhile fun byte => isIdentStart byte || isAsciiDigit byte)
      else none

/-- `is_identifier` of the statement parser. -/
def isIdentifier (text : Bytes) : Bool :=
  (parseIdentifier text).any fun parsed => (trim parsed.2).isEmpty

/-! ## Delimiters -/

/-- The loop of `extract_braces`. -/
def bracesEndFrom (quote : Option (UInt8 × Bool)) (depth : ℤ) (index : ℕ) :
    Bytes → Option ℕ
  | [] => none
  | byte :: rest =>
      match escapedQuote [34, 39] quote byte with
      | some quote => bracesEndFrom quote depth (index + 1) rest
      | none =>
          if byte = 123 then bracesEndFrom none (depth + 1) (index + 1) rest
          else if byte = 125 then
            if depth - 1 = 0 then some index
            else bracesEndFrom none (depth - 1) (index + 1) rest
          else bracesEndFrom none depth (index + 1) rest

/-- `extract_braces`: the text within the braces and the text after them. -/
def extractBraces (text : Bytes) : Option (Bytes × Bytes) :=
  if text.head? = some 123 then
    (bracesEndFrom none 0 0 text).map fun index =>
      ((text.take index).drop 1, text.drop (index + 1))
  else none

/-- The loop of `extract_paren`. -/
def parenEndFrom (quote : Option UInt8) (depth : ℤ) (index : ℕ) : Bytes → Option ℕ
  | [] => none
  | byte :: rest =>
      match plainQuote quote byte with
      | some quote => parenEndFrom quote depth (index + 1) rest
      | none =>
          if byte = 40 then parenEndFrom none (depth + 1) (index + 1) rest
          else if byte = 41 then
            if depth - 1 = 0 then some index
            else parenEndFrom none (depth - 1) (index + 1) rest
          else parenEndFrom none depth (index + 1) rest

/-- `extract_paren`. -/
def extractParen (text : Bytes) : Option (Bytes × Bytes) :=
  if text.head? = some 40 then
    (parenEndFrom none 0 0 text).map fun index =>
      ((text.take index).drop 1, text.drop (index + 1))
  else none

/-- The loop of `extract_statement`: where the first statement ends. -/
def statementEndFrom (quote : Option UInt8) (depth : ℤ) (index : ℕ) : Bytes → Option ℕ
  | [] => none
  | byte :: rest =>
      match plainQuote quote byte with
      | some quote => statementEndFrom quote depth (index + 1) rest
      | none =>
          if (byte = 59 ∨ byte = 10) ∧ depth = 0 then some index
          else statementEndFrom none (depthAfter depth byte) (index + 1) rest

/-- `extract_statement`. -/
def extractStatement (src : Bytes) : Option (Bytes × Bytes) :=
  let text := trimStart src
  if text.isEmpty then none
  else
    match statementEndFrom none 0 0 text with
    | some index => some (trim (text.take index), trimStart (text.drop (index + 1)))
    | none => some (trim text, [])

/-- A byte that goes on a word for `split_do_while_body`. -/
def isWordByte (byte : UInt8) : Bool := isIdentStart byte || isAsciiDigit byte

/-- The loop of `split_do_while_body`: where the word `while` is found. -/
def whileWordFrom (quote : Option (UInt8 × Bool)) (previous : UInt8) (depth : ℤ)
    (index : ℕ) : Bytes → Option ℕ
  | [] => none
  | byte :: rest =>
      match escapedQuote [39, 34, 96] quote byte with
      | some quote => whileWordFrom quote byte depth (index + 1) rest
      | none =>
          if depthAfter depth byte = 0 ∧ startsWith "while" (byte :: rest) ∧
              ¬isWordByte previous ∧
              ¬isWordByte ((rest.drop 4).head?.getD 32) then
            some index
          else whileWordFrom none byte (depthAfter depth byte) (index + 1) rest

/-- `split_do_while_body`. -/
def splitDoWhileBody (src : Bytes) : Option (Bytes × Bytes) :=
  let text := trimStart src
  (whileWordFrom none 32 0 0 text).map fun index =>
    (trimEnd (text.take index), trimStart (text.drop index))

/-- The loop of `find_for_in_keyword`. -/
def forInKeywordFrom (quote : Option (UInt8 × Bool)) (depth : ℤ) (index : ℕ) :
    Bytes → Option ℕ
  | [] => none
  | byte :: rest =>
      match escapedQuote [39, 34] quote byte with
      | some quote => forInKeywordFrom quote depth (index + 1) rest
      | none =>
          if depthAfter depth byte = 0 ∧ startsWith " in " (byte :: rest) then some index
          else forInKeywordFrom none (depthAfter depth byte) (index + 1) rest

/-- `find_for_in_keyword`. -/
def findForInKeyword (header : Bytes) : Option ℕ := forInKeywordFrom none 0 0 header

/-- The loop of `find_for_of_keyword`, which wants a byte after the keyword. -/
def forOfKeywordFrom (index : ℕ) : Bytes → Option ℕ
  | [] => none
  | byte :: rest =>
      if startsWith " of " (byte :: rest) ∧ 4 ≤ rest.length then some (index + 1)
      else forOfKeywordFrom (index + 1) rest

/-- `find_for_of_keyword`. -/
def findForOfKeyword (header : Bytes) : Option ℕ := forOfKeywordFrom 0 header

/-- The parts of a text between the semicolons (`str::split`). -/
def splitSemicolons (part : Bytes) : Bytes → List Bytes
  | [] => [part]
  | byte :: rest =>
      if byte = 59 then part :: splitSemicolons [] rest
      else splitSemicolons (part ++ [byte]) rest

/-! ## Cases of a switch -/

/-- The loop of `find_case_colon`. -/
def caseColonFrom (quote : Option UInt8) (depth : ℤ) (index : ℕ) : Bytes → Option ℕ
  | [] => none
  | byte :: rest =>
      match plainQuote quote byte with
      | some quote => caseColonFrom quote depth (index + 1) rest
      | none =>
          if byte = 58 ∧ depth = 0 then some index
          else caseColonFrom none (depthAfter depth byte) (index + 1) rest

/-- `find_case_colon`. -/
def findCaseColon (text : Bytes) : Option ℕ := caseColonFrom none 0 0 text

/-- The loop of `find_case_body_end`. -/
def caseBodyEndFrom (quote : Option (UInt8 × Bool)) (depth : ℤ) (index : ℕ) : Bytes → ℕ
  | [] => index
  | byte :: rest =>
      match escapedQuote [39, 34] quote byte with
      | some quote => caseBodyEndFrom quote depth (index + 1) rest
      | none =>
          if byte = 125 ∧ depth = 0 then index
          else
            let depth :=
              if byte = 123 then depth + 1 else if byte = 125 then depth - 1 else depth
            if depth = 0 ∧
                (startsWith "case " (byte :: rest) ∨ startsWith "default" (byte :: rest)) then
              index
            else caseBodyEndFrom none depth (index + 1) rest

/-- `find_case_body_end`. -/
def findCaseBodyEnd (text : Bytes) : ℕ := caseBodyEndFrom none 0 0 text

/-- A clause of a switch: its expression, none for the default, and its body. -/
abbrev SwitchCase := Option Bytes × Bytes

/-- The loop of `parse_switch_cases`; each turn takes bytes, which the fuel counts. -/
def switchCasesFrom : ℕ → Bytes → Option (List SwitchCase)
  | 0, _ => some []
  | fuel + 1, text =>
      let rest := trimStart text
      if rest.isEmpty then some []
      else if startsWith "case " rest then do
        let afterCase := rest.drop 5
        let colon ← findCaseColon afterCase
        let clauses := afterCase.drop (colon + 1)
        let bodyEnd := findCaseBodyEnd clauses
        let others ← switchCasesFrom fuel (clauses.drop bodyEnd)
        some ((some (trim (afterCase.take colon)), trim (clauses.take bodyEnd)) :: others)
      else if startsWith "default" rest then do
        let afterDefault := trimStart (rest.drop 7)
        let clauses ← stripPrefix [58] afterDefault
        let bodyEnd := findCaseBodyEnd clauses
        let others ← switchCasesFrom fuel (clauses.drop bodyEnd)
        some ((none, trim (clauses.take bodyEnd)) :: others)
      else some []

/-- `parse_switch_cases`. -/
def parseSwitchCases (body : Bytes) : Option (List SwitchCase) :=
  switchCasesFrom (body.length + 1) (trim body)

/-! ## Comments and lines -/

/-- Where `strip_comments_checked` is in the text. -/
inductive CommentMode
  | code
  | string (mark : UInt8) (escaped : Bool)
  | lineStart
  | line
  | blockStart
  | block
  | blockEnd

/-- The loop of `strip_comments_checked`: comments become spaces; none when a
block comment is not closed. -/
def stripCommentsFrom (mode : CommentMode) : Bytes → Option Bytes
  | [] =>
      match mode with
      | .block => none
      | _ => some []
  | byte :: rest =>
      match mode with
      | .code =>
          if byte = 39 ∨ byte = 34 then
            (stripCommentsFrom (.string byte false) rest).map (byte :: ·)
          else if byte = 47 ∧ rest.head? = some 47 then
            (stripCommentsFrom .lineStart rest).map (32 :: ·)
          else if byte = 47 ∧ rest.head? = some 42 then
            (stripCommentsFrom .blockStart rest).map (32 :: ·)
          else (stripCommentsFrom .code rest).map (byte :: ·)
      | .string mark true => (stripCommentsFrom (.string mark false) rest).map (byte :: ·)
      | .string mark false =>
          if byte = 92 then (stripCommentsFrom (.string mark true) rest).map (byte :: ·)
          else if byte = mark then (stripCommentsFrom .code rest).map (byte :: ·)
          else (stripCommentsFrom (.string mark false) rest).map (byte :: ·)
      | .lineStart => (stripCommentsFrom .line rest).map (32 :: ·)
      | .line =>
          if byte = 10 then (stripCommentsFrom .code rest).map (10 :: ·)
          else (stripCommentsFrom .line rest).map (32 :: ·)
      | .blockStart => (stripCommentsFrom .block rest).map (32 :: ·)
      | .block =>
          if byte = 42 ∧ rest.head? = some 47 then
            (stripCommentsFrom .blockEnd rest).map (32 :: ·)
          else
            (stripCommentsFrom .block rest).map ((if byte = 10 then 10 else 32) :: ·)
      | .blockEnd => (stripCommentsFrom .code rest).map (32 :: ·)

/-- `strip_comments_checked`. -/
def stripCommentsChecked (src : Bytes) : Option Bytes := stripCommentsFrom .code src

/-- A line without the carriage return before its end. -/
def chomp (line : Bytes) : Bytes :=
  if line.getLast? = some 13 then line.dropLast else line

/-- `str::lines`, with the line read so far. -/
def linesFrom (line : Bytes) : Bytes → List Bytes
  | [] => if line.isEmpty then [] else [line]
  | byte :: rest =>
      if byte = 10 then chomp line :: linesFrom [] rest else linesFrom (line ++ [byte]) rest

/-- `line_ends_with_operator`. -/
def lineEndsWithOperator (line : Bytes) : Bool :=
  match (trimEnd line).reverse with
  | [] => false
  | last :: before =>
      if last = 43 ∨ last = 45 then before.head? ≠ some last
      else last ∈ asBytes "*/%&|^<>=?:,."

/-- The index of the parenthesis that closes the first one, strings not heeded. -/
def closingParenFrom (depth : ℤ) (index : ℕ) : Bytes → Option ℕ
  | [] => none
  | byte :: rest =>
      if byte = 40 then closingParenFrom (depth + 1) (index + 1) rest
      else if byte = 41 then
        if depth - 1 = 0 then some index else closingParenFrom (depth - 1) (index + 1) rest
      else closingParenFrom depth (index + 1) rest

/-- `has_inline_body`: the line goes on after its header. -/
def hasInlineBody (line : Bytes) : Bool :=
  if startsWith "if" line || startsWith "while" line || startsWith "for" line then
    match findSeqFrom [40] 0 line with
    | none => false
    | some start =>
        match closingParenFrom 0 0 (line.drop start) with
        | none => false
        | some index => !(trim (line.drop (start + index + 1))).isEmpty
  else if startsWith "else" line then line ≠ asBytes "else"
  else if startsWith "do" line then line ≠ asBytes "do"
  else false

/-- `is_control`. -/
def isControl (line : Bytes) : Bool :=
  startsWithKeyword "if" 40 line || startsWith "else" line || startsWith "function " line ||
    startsWithKeyword "while" 40 line || startsWithKeyword "for" 40 line ||
    startsWith "try" line || startsWith "catch" line

/-- `str::contains`. -/
def contains (literal : String) (text : Bytes) : Bool :=
  (findSeqFrom (asBytes literal) 0 text).isSome

/-- The line is continued by the next one. -/
def isContinued (current next : Bytes) : Bool :=
  let line := trimStart current
  (isControl line && !contains "\x7b" line && (trimEnd line).getLast? ≠ some 59 &&
      !hasInlineBody line) ||
    (contains "function" line && (trimEnd line).getLast? = some 41 &&
      (trimStart next).head? = some 123) ||
    lineEndsWithOperator current

/-- The loop of `normalize_line_continuations`. -/
def joinLines (current : Bytes) : List Bytes → Bytes
  | [] => current ++ [10]
  | next :: rest =>
      if isContinued current next then joinLines (current ++ [32] ++ trimStart next) rest
      else current ++ [10] ++ joinLines next rest

/-- `normalize_line_continuations`. -/
def normalizeLineContinuations (src : Bytes) : Bytes :=
  if 10 ∈ src then
    match linesFrom [] src with
    | [] => []
    | first :: rest => joinLines first rest
  else src

/-! ## Lists of statements -/

/-- A statement that ends with its closing brace. -/
def endsWithBrace (part : Bytes) : Bool :=
  startsWithKeyword "if" 40 part || startsWithKeyword "while" 40 part ||
    startsWithKeyword "for" 40 part || startsWith "function " part

/-- `looks_like_control`. -/
def looksLikeControl (part : Bytes) : Bool :=
  (startsWithKeyword "if" 40 part || startsWithKeyword "while" 40 part ||
    startsWithKeyword "for" 40 part) && part.getLast? = some 41

/-- The statement goes on after a semicolon or line end. -/
def goesOn (byte : UInt8) (part rest : Bytes) : Bool :=
  startsWith "else" (trimStart rest) ||
    (byte = 10 && (part = asBytes "else" || part = asBytes "do" || looksLikeControl part))

/-- The loop of `split_statements`, with the text since the last cut. -/
def splitStatementsFrom (quote : Option UInt8) (depth : ℤ) (piece : Bytes) :
    Bytes → Option (List Bytes)
  | [] => if depth = 0 then some (keptPiece piece) else none
  | byte :: rest =>
      match plainQuote quote byte with
      | some quote => splitStatementsFrom quote depth (piece ++ [byte]) rest
      | none =>
          if isOpening byte then splitStatementsFrom none (depth + 1) (piece ++ [byte]) rest
          else if isClosing byte then
            if depth - 1 < 0 then none
            else if depth - 1 = 0 ∧ byte = 125 ∧
                ¬startsWithKeyword "else" 123 (trimStart rest) ∧
                endsWithBrace (trim (piece ++ [byte])) then
              (splitStatementsFrom none (depth - 1) [] rest).map
                (trim (piece ++ [byte]) :: ·)
            else splitStatementsFrom none (depth - 1) (piece ++ [byte]) rest
          else if (byte = 59 ∨ byte = 10) ∧ depth = 0 ∧ ¬goesOn byte (trim piece) rest then
            (splitStatementsFrom none depth [] rest).map (keptPiece piece ++ ·)
          else splitStatementsFrom none depth (piece ++ [byte]) rest

/-- `split_statements`. -/
def splitStatements (src : Bytes) : Option (List Bytes) :=
  if (trim src).isEmpty then some [] else splitStatementsFrom none 0 [] src

/-- The statements that are more than white space, without it. -/
def trimmedStatements (statements : List Bytes) : List Bytes :=
  (statements.map trim).filter fun text => !text.isEmpty

/-- `parse_body_to_stmts`. -/
def parseBodyToStmts (body : Bytes) : Option (List Bytes) :=
  (stripCommentsChecked body).bind fun stripped =>
    (splitStatements (normalizeLineContinuations stripped)).map trimmedStatements

/-- The loop of `split_top_level`, with the text since the last comma. -/
def splitTopLevelFrom (quote : Option UInt8) (depth : ℤ) (piece : Bytes) :
    Bytes → Option (List Bytes)
  | [] => if depth = 0 then some (keptPiece piece) else none
  | byte :: rest =>
      match plainQuote quote byte with
      | some quote => splitTopLevelFrom quote depth (piece ++ [byte]) rest
      | none =>
          if isClosing byte ∧ depth - 1 < 0 then none
          else if byte = 44 ∧ depth = 0 then
            (splitTopLevelFrom none depth [] rest).map (trim piece :: ·)
          else splitTopLevelFrom none (depthAfter depth byte) (piece ++ [byte]) rest

/-- `split_top_level`. -/
def splitTopLevel (src : Bytes) : Option (List Bytes) :=
  let text := trim src
  if text.isEmpty then some [] else splitTopLevelFrom none 0 [] text

end Walker
end Script
end MuonJs
