import MuonJs.Script.Context

/-!
# Scanning script text

How the compiler cuts a script into pieces before it parses expressions.  The
text is UTF-8 and is scanned byte by byte; a quote opens a string, which ends at
the next such quote that no backslash precedes.
-/

namespace MuonJs
namespace Script

open Cache (Bytes F64 asBytes)

/-! ## Trimming -/

/-- The UTF-8 encodings of the Unicode white space characters. -/
def whiteSpaces : List Bytes :=
  [[9], [10], [11], [12], [13], [32], [0xC2, 0x85], [0xC2, 0xA0], [0xE1, 0x9A, 0x80],
    [0xE2, 0x80, 0x80], [0xE2, 0x80, 0x81], [0xE2, 0x80, 0x82], [0xE2, 0x80, 0x83],
    [0xE2, 0x80, 0x84], [0xE2, 0x80, 0x85], [0xE2, 0x80, 0x86], [0xE2, 0x80, 0x87],
    [0xE2, 0x80, 0x88], [0xE2, 0x80, 0x89], [0xE2, 0x80, 0x8A], [0xE2, 0x80, 0xA8],
    [0xE2, 0x80, 0xA9], [0xE2, 0x80, 0xAF], [0xE2, 0x81, 0x9F], [0xE3, 0x80, 0x80]]

/-- Drop patterns from the front, after some bytes that belong to one. -/
def dropPatterns (patterns : List Bytes) : ℕ → Bytes → Bytes
  | _, [] => []
  | skip + 1, _ :: rest => dropPatterns patterns skip rest
  | 0, byte :: rest =>
      match patterns.find? fun pattern => pattern.isPrefixOf (byte :: rest) with
      | none => byte :: rest
      | some pattern => dropPatterns patterns (pattern.length - 1) rest

/-- `str::trim_start`. -/
def trimStart (text : Bytes) : Bytes := dropPatterns whiteSpaces 0 text

/-- `str::trim_end`. -/
def trimEnd (text : Bytes) : Bytes :=
  (dropPatterns (whiteSpaces.map List.reverse) 0 text.reverse).reverse

/-- `str::trim`. -/
def trim (text : Bytes) : Bytes := trimEnd (trimStart text)

/-- `str::trim_end_matches`, for one byte. -/
def trimEndMatches (byte : UInt8) (text : Bytes) : Bytes :=
  (text.reverse.dropWhile (· = byte)).reverse

/-- `str::strip_prefix`. -/
def stripPrefix (pre text : Bytes) : Option Bytes :=
  if pre.isPrefixOf text then some (text.drop pre.length) else none

/-! ## Identifiers -/

/-- `is_ident_start`. -/
def isIdentStart (byte : UInt8) : Bool :=
  (97 ≤ byte && byte ≤ 122) || (65 ≤ byte && byte ≤ 90) || byte = 95 || byte = 36

/-- A byte of an identifier after the first. -/
def isIdentByte (byte : UInt8) : Bool := isIdentStart byte || Cache.isAsciiDigit byte

/-- `is_valid_identifier`. -/
def isValidIdentifier : Bytes → Bool
  | [] => false
  | first :: rest => isIdentStart first && rest.all isIdentByte

/-! ## Scanners -/

/-- The step of a scanner on quotes: none when the byte is outside of strings and
opens none, else the quote of the string after the byte. -/
def quoteStep (quote previous : Option UInt8) (byte : UInt8) : Option (Option UInt8) :=
  match quote with
  | some mark => some (if byte = mark ∧ previous ≠ some 92 then none else some mark)
  | none => if byte = 39 ∨ byte = 34 then some (some byte) else none

/-- The loop of `find_assignment_eq`. -/
def findAssignmentEqFrom (previous : Option UInt8) (index : ℕ) : Bytes → Option ℕ
  | [] => none
  | byte :: rest =>
      if byte = 61 ∧ rest.head? ≠ some 61 ∧
          ¬previous.any fun before => before ∈ asBytes "!<>+-*/" then some index
      else findAssignmentEqFrom (some byte) (index + 1) rest

/-- `find_assignment_eq`. -/
def findAssignmentEq (text : Bytes) : Option ℕ := findAssignmentEqFrom none 0 text

/-- The loop of `find_matching_paren`. -/
def findMatchingParenFrom (quote previous : Option UInt8) (depth : ℤ) (index : ℕ) :
    Bytes → Option ℕ
  | [] => none
  | byte :: rest =>
      match quoteStep quote previous byte with
      | some quote => findMatchingParenFrom quote (some byte) depth (index + 1) rest
      | none =>
          if byte = 40 then findMatchingParenFrom none (some byte) (depth + 1) (index + 1) rest
          else if byte = 41 then
            if depth = 0 then some index
            else findMatchingParenFrom none (some byte) (depth - 1) (index + 1) rest
          else findMatchingParenFrom none (some byte) depth (index + 1) rest

/-- `find_matching_paren`. -/
def findMatchingParen (text : Bytes) : Option ℕ := findMatchingParenFrom none none 0 0 text

/-- The index of the closing brace at which the depth comes back to zero. -/
def closingBraceFrom (quote previous : Option UInt8) (depth : ℤ) (index : ℕ) :
    Bytes → Option ℕ
  | [] => none
  | byte :: rest =>
      match quoteStep quote previous byte with
      | some quote => closingBraceFrom quote (some byte) depth (index + 1) rest
      | none =>
          if byte = 123 then closingBraceFrom none (some byte) (depth + 1) (index + 1) rest
          else if byte = 125 then
            if depth - 1 = 0 then some index
            else closingBraceFrom none (some byte) (depth - 1) (index + 1) rest
          else closingBraceFrom none (some byte) depth (index + 1) rest

/-- `extract_braced_body`. -/
def extractBracedBody (text : Bytes) : Option Bytes :=
  let text := trim text
  if text.head? = some 123 then
    (closingBraceFrom none none 0 0 text).map fun index => (text.take index).drop 1
  else none

/-- `find_else_after_brace`: the text after `else`. -/
def findElseAfterBrace (text : Bytes) : Option Bytes :=
  (closingBraceFrom none none 0 0 text).bind fun index =>
    (stripPrefix (asBytes "else") (trimStart (text.drop (index + 1)))).filter fun after =>
      after.head?.all fun byte => byte = 32 || byte = 123 || byte = 10

/-- A piece that is kept when it is more than white space. -/
def keptPiece (piece : Bytes) : List Bytes :=
  if (trim piece).isEmpty then [] else [trim piece]

/-- The loop of `simple_split_statements`, with the piece read so far. -/
def simpleSplitFrom (quote previous : Option UInt8) (paren brace bracket : ℤ)
    (piece : Bytes) : Bytes → List Bytes
  | [] => keptPiece piece
  | byte :: rest =>
      match quoteStep quote previous byte with
      | some quote =>
          simpleSplitFrom quote (some byte) paren brace bracket (piece ++ [byte]) rest
      | none =>
          if byte = 40 then
            simpleSplitFrom none (some byte) (paren + 1) brace bracket (piece ++ [byte]) rest
          else if byte = 41 then
            simpleSplitFrom none (some byte) (paren - 1) brace bracket (piece ++ [byte]) rest
          else if byte = 123 then
            simpleSplitFrom none (some byte) paren (brace + 1) bracket (piece ++ [byte]) rest
          else if byte = 125 then
            if paren = 0 ∧ brace - 1 = 0 ∧ bracket = 0 then
              keptPiece (piece ++ [byte]) ++
                simpleSplitFrom none (some byte) paren (brace - 1) bracket [] rest
            else
              simpleSplitFrom none (some byte) paren (brace - 1) bracket (piece ++ [byte]) rest
          else if byte = 91 then
            simpleSplitFrom none (some byte) paren brace (bracket + 1) (piece ++ [byte]) rest
          else if byte = 93 then
            simpleSplitFrom none (some byte) paren brace (bracket - 1) (piece ++ [byte]) rest
          else if (byte = 59 ∨ byte = 10) ∧ paren = 0 ∧ brace = 0 ∧ bracket = 0 then
            keptPiece piece ++ simpleSplitFrom none (some byte) paren brace bracket [] rest
          else simpleSplitFrom none (some byte) paren brace bracket (piece ++ [byte]) rest

/-- `simple_split_statements`. -/
def simpleSplitStatements (body : Bytes) : List Bytes := simpleSplitFrom none none 0 0 0 [] body

/-- The loop of `split_for_header`, with the part read so far. -/
def splitForHeaderFrom (quote previous : Option UInt8) (depth : ℤ) (part : Bytes) :
    Bytes → List Bytes
  | [] => [part]
  | byte :: rest =>
      match quoteStep quote previous byte with
      | some quote => splitForHeaderFrom quote (some byte) depth (part ++ [byte]) rest
      | none =>
          if byte = 40 then
            splitForHeaderFrom none (some byte) (depth + 1) (part ++ [byte]) rest
          else if byte = 41 then
            splitForHeaderFrom none (some byte) (depth - 1) (part ++ [byte]) rest
          else if byte = 59 ∧ depth = 0 then
            part :: splitForHeaderFrom none (some byte) depth [] rest
          else splitForHeaderFrom none (some byte) depth (part ++ [byte]) rest

/-- `split_for_header`: the three parts. -/
def splitForHeader (header : Bytes) : Option (Bytes × Bytes × Bytes) :=
  match splitForHeaderFrom none none 0 [] header with
  | [init, cond, update] => some (init, cond, update)
  | _ => none

/-- The index at which a text is first found (`str::find`). -/
def findSeqFrom (seq : Bytes) (index : ℕ) : Bytes → Option ℕ
  | [] => if seq.isEmpty then some index else none
  | byte :: rest =>
      if seq.isPrefixOf (byte :: rest) then some index else findSeqFrom seq (index + 1) rest

end Script
end MuonJs
