import MuonJs.Script.StatementText

/-!
# The forms of statements

What the tree walker reads off the text of a statement before it evaluates any
part of it: which form the statement has and where its parts are.  The evaluation
of a form is in `Walker`.
-/

namespace MuonJs
namespace Script
namespace Walker

open Cache (Bytes asBytes)

/-! ## Bodies -/

/-- A block, without its braces, or a single statement. -/
structure Branch where
  text : Bytes
  isBlock : Bool
  deriving DecidableEq

/-- The body of a loop with its statements, when it could be cut into statements. -/
structure LoopBody extends Branch where
  cachedStmts : Option (List Bytes)
  deriving DecidableEq

/-- A statement that declares a binding of the block around it. -/
def declaresLexically (statement : Bytes) : Bool :=
  startsWith "let " statement || startsWith "const " statement

namespace LoopBody

/-- The body of a loop, cut into statements once. -/
def ofBranch (branch : Branch) : LoopBody := ⟨branch, parseBodyToStmts branch.text⟩

/-- `needs_block_scope`. -/
def needsBlockScope (body : LoopBody) : Bool :=
  body.isBlock && body.cachedStmts.all fun stmts => stmts.any declaresLexically

end LoopBody

/-- A block, or the first statement, and the text after it. -/
def branchAndRest (text : Bytes) : Option (Branch × Bytes) :=
  if text.head? = some 123 then
    (extractBraces text).map fun found => (⟨found.1, true⟩, found.2)
  else (extractStatement text).map fun found => (⟨found.1, false⟩, found.2)

/-! ## Labels -/

/-- The loop of `parse_labeled_statement` that looks for the colon. -/
def labelColonFrom (quote previous : Option UInt8) (paren bracket brace : ℤ) (index : ℕ) :
    Bytes → Option ℕ
  | [] => none
  | byte :: rest =>
      match quote with
      | some mark =>
          labelColonFrom
            (if byte = mark ∧ previous ≠ some 92 then none else some mark)
            (some byte) paren bracket brace (index + 1) rest
      | none =>
          if byte = 39 ∨ byte = 34 ∨ byte = 96 then
            labelColonFrom (some byte) (some byte) paren bracket brace (index + 1) rest
          else if byte = 58 ∧ paren = 0 ∧ bracket = 0 ∧ brace = 0 then some index
          else
            labelColonFrom none (some byte)
              (if byte = 40 then paren + 1 else if byte = 41 then paren - 1 else paren)
              (if byte = 91 then bracket + 1 else if byte = 93 then bracket - 1 else bracket)
              (if byte = 123 then brace + 1 else if byte = 125 then brace - 1 else brace)
              (index + 1) rest

/-- What a label stands before. -/
inductive Labeled
  | block (body : Bytes)
  | forLoop (src : Bytes)
  | whileLoop (src : Bytes)
  | doWhile (src : Bytes)
  | other (src : Bytes)
  deriving DecidableEq

/-- The label of a statement and what it stands before; none when the statement is
not a labelled one. -/
def labelParts (src : Bytes) : Option (Bytes × Labeled) := do
  let text := trim src
  let colon ← labelColonFrom none none 0 0 0 0 text
  let label := trim (text.take colon)
  if isIdentifier label then
    let statement := trim (text.drop (colon + 1))
    if statement.head? = some 123 then
      let found ← extractBraces statement
      some (label, .block found.1)
    else if startsWithKeyword "for" 40 statement then some (label, .forLoop statement)
    else if startsWithKeyword "while" 40 statement then some (label, .whileLoop statement)
    else if startsWithKeyword "do" 123 statement then some (label, .doWhile statement)
    else some (label, .other statement)
  else none

/-! ## Forms -/

/-- The forms of a statement of a function body. -/
inductive StatementForm
  | breakTo (label : Option Bytes)
  | continueTo (label : Option Bytes)
  | returnOf (operand : Option Bytes)
  | throwOf (operand : Option Bytes)
  | tryCatch
  | functionDeclaration
  | labeled (label : Bytes) (statement : Labeled)
  | ifElse
  | whileLoop
  | forLoop
  | doWhile
  | switch
  | block
  | expression
  deriving DecidableEq

/-- The form that a keyword and its label or operand give a statement. -/
def jumpForm (text : Bytes) : Option StatementForm :=
  if text = asBytes "break" then some (.breakTo none)
  else if startsWith "break " text ∧ isValidIdentifier (trim (text.drop 6)) then
    some (.breakTo (some (trim (text.drop 6))))
  else if text = asBytes "continue" then some (.continueTo none)
  else if startsWith "continue " text ∧ isValidIdentifier (trim (text.drop 9)) then
    some (.continueTo (some (trim (text.drop 9))))
  else if startsWith "return " text then some (.returnOf (some (trim (text.drop 7))))
  else if text = asBytes "return" then some (.returnOf none)
  else if startsWith "throw " text then some (.throwOf (some (trim (text.drop 6))))
  else if text = asBytes "throw" then some (.throwOf none)
  else none

/-- The form of a statement that is not labelled and jumps nowhere. -/
def plainForm (text : Bytes) : StatementForm :=
  if startsWithKeyword "if" 40 text then .ifElse
  else if startsWithKeyword "while" 40 text then .whileLoop
  else if startsWithKeyword "for" 40 text then .forLoop
  else if startsWithKeyword "do" 123 text then .doWhile
  else if startsWithKeyword "switch" 40 text then .switch
  else if text.head? = some 123 ∧ text.getLast? = some 125 then .block
  else .expression

/-- The form by which `eval_function_body` evaluates a statement. -/
def statementForm (text : Bytes) : StatementForm :=
  match jumpForm text with
  | some form => form
  | none =>
      if startsWithKeyword "try" 123 text then .tryCatch
      else if startsWith "function " text then .functionDeclaration
      else
        match labelParts text with
        | some (label, statement) => .labeled label statement
        | none => plainForm text

/-- The form by which `eval_program` evaluates a statement: it knows no `return` and no jump
to a label. -/
def programForm (text : Bytes) : StatementForm :=
  if text = asBytes "break" then .breakTo none
  else if text = asBytes "continue" then .continueTo none
  else if startsWith "function " text then .functionDeclaration
  else if plainForm text ≠ .block ∧ plainForm text ≠ .expression then plainForm text
  else if startsWith "throw " text then .throwOf (some (trim (text.drop 6)))
  else if text = asBytes "throw" then .throwOf none
  else if startsWithKeyword "try" 123 text then .tryCatch
  else
    match labelParts text with
    | some (label, statement) => .labeled label statement
    | none => plainForm text

/-- `is_keyword_possible`. -/
def isKeywordPossible (text : Bytes) : Bool :=
  match text.head? with
  | none => false
  | some first =>
      if first ∈ asBytes "bctfiwds\x7bvl" then true
      else if first = 114 then text = asBytes "return" || startsWith "return " text
      else false

/-- The form by which `eval_function_body_cached` evaluates a statement. -/
def statementFormCached (text : Bytes) : StatementForm :=
  if isKeywordPossible text then statementForm text
  else if 58 ∈ text then
    match labelParts text with
    | some (label, statement) => .labeled label statement
    | none => .expression
  else .expression

/-! ## Parts of the compound forms -/

/-- `parse_parameter_list`. -/
def parseParameterList (src : Bytes) : Option (List Bytes) :=
  (splitTopLevel src).map trimmedStatements

/-- The name, the parameters and the body of a function declaration. -/
def functionParts (src : Bytes) : Option (Bytes × List Bytes × Bytes) := do
  let rest ← stripPrefix (asBytes "function ") (trim src)
  let (name, afterName) ← parseIdentifier rest
  let (params, afterParams) ← extractParen (trimStart afterName)
  let params ← parseParameterList params
  let (body, _) ← extractBraces (trimStart afterParams)
  some (name, params, body)

/-- The parts of an if statement. -/
structure IfStatement where
  condition : Bytes
  thenBody : Branch
  elseBody : Option Branch

/-- What follows the first branch of an if statement. -/
def elseParts (afterThen : Bytes) : Option (Option Branch) :=
  match stripPrefix (asBytes "else") afterThen with
  | none => some none
  | some after =>
      let afterElse := trimStart after
      if startsWithKeyword "if" 40 afterElse then some (some ⟨afterElse, false⟩)
      else if afterElse.head? = some 123 then
        (extractBraces afterElse).map fun found => some ⟨found.1, true⟩
      else some ((extractStatement afterElse).map fun found => ⟨found.1, false⟩)

/-- The text part of `parse_if_statement`. -/
def ifParts (src : Bytes) : Option IfStatement := do
  let rest ← afterKeyword "if" 40 (trim src)
  let (condition, afterCond) ← extractParen (trimStart rest)
  let (thenBody, afterThen) ← branchAndRest (trimStart afterCond)
  let elseBody ← elseParts (trimStart afterThen)
  some ⟨condition, thenBody, elseBody⟩

/-- The text part of `parse_while_loop`: the condition and the body. -/
def whileParts (src : Bytes) : Option (Bytes × LoopBody) := do
  let rest ← afterKeyword "while" 40 (trim src)
  let (condition, afterCond) ← extractParen (trimStart rest)
  let (body, _) ← branchAndRest (trimStart afterCond)
  some (condition, .ofBranch body)

/-- The text part of `parse_do_while_loop`: the body and the condition. -/
def doWhileParts (src : Bytes) : Option (LoopBody × Bytes) := do
  let rest ← afterKeyword "do" 123 (trim src)
  let (bodyPart, afterBody) ← splitDoWhileBody (trimStart rest)
  let body ←
    if bodyPart.head? = some 123 then
      (extractBraces bodyPart).map fun found => (⟨found.1, true⟩ : Branch)
    else some ⟨bodyPart, false⟩
  let afterWhile ← stripPrefix (asBytes "while") afterBody
  let (condition, _) ← extractParen (trimStart afterWhile)
  some (.ofBranch body, condition)

/-- The keyword that declares the variable of a loop. -/
inductive DeclKind
  | var
  | lexical
  deriving DecidableEq

/-- The declaring keyword of a loop variable and the text after it. -/
def declKind (part : Bytes) : Option DeclKind × Bytes :=
  if startsWith "var " part then (some .var, trim (part.drop 4))
  else if startsWith "let " part then (some .lexical, trim (part.drop 4))
  else if startsWith "const " part then (some .lexical, trim (part.drop 6))
  else (none, part)

/-- The three kinds of for loops. -/
inductive ForLoop
  | forIn (kind : Option DeclKind) (target objExpr : Bytes) (body : LoopBody)
  | forOf (kind : Option DeclKind) (name iterExpr : Bytes) (body : LoopBody)
  | cStyle (init condition update : Bytes) (body : LoopBody)
  deriving DecidableEq

/-- The text part of `parse_for_loop`, `parse_for_in_loop` and `parse_for_of_loop`. -/
def forParts (src : Bytes) : Option ForLoop := do
  let rest ← afterKeyword "for" 40 (trim src)
  let (header, after) ← extractParen (trimStart rest)
  let afterHeader := trimStart after
  match findForInKeyword header with
  | some position =>
      let (kind, target) := declKind (trim (header.take position))
      let (body, _) ← extractBraces afterHeader
      some (.forIn kind target (trim (header.drop (position + 4))) (.ofBranch ⟨body, true⟩))
  | none =>
      match findForOfKeyword header with
      | some position =>
          let (kind, name) := declKind (trim (header.take position))
          let (body, _) ← branchAndRest afterHeader
          some (.forOf kind name (trim (header.drop (position + 3))) (.ofBranch body))
      | none =>
          match splitSemicolons [] header with
          | [init, condition, update] =>
              let body ←
                if afterHeader.head? = some 123 then
                  (extractBraces afterHeader).map fun found => (⟨found.1, true⟩ : Branch)
                else some ⟨afterHeader, false⟩
              some (.cStyle (trim init) (trim condition) (trim update) (.ofBranch body))
          | _ => none

/-- The parts of a try statement. -/
structure TryStatement where
  tryBody : Bytes
  /-- The parameter and the body of the catch clause. -/
  catchClause : Option (Option Bytes × Bytes)
  finallyBody : Option Bytes

/-- The catch clause of a try statement and the text after it. -/
def catchParts (remaining : Bytes) : Option (Option (Option Bytes × Bytes) × Bytes) :=
  match stripPrefix (asBytes "catch") remaining with
  | none => some (none, remaining)
  | some after => do
      let afterCatch := trim after
      let (param, bodyStart) ←
        if afterCatch.head? = some 40 then
          (findSeqFrom [41] 0 afterCatch).map fun parenEnd =>
            (some (trim ((afterCatch.take parenEnd).drop 1)),
              trim (afterCatch.drop (parenEnd + 1)))
        else some (none, afterCatch)
      let (body, afterBody) ← extractBraces bodyStart
      some (some (param, body), trim afterBody)

/-- The text part of `parse_try_catch`. -/
def tryParts (src : Bytes) : Option TryStatement := do
  let rest ← afterKeyword "try" 123 (trim src)
  let (tryBody, afterTry) ← extractBraces (trim rest)
  let (catchClause, remaining) ← catchParts (trim afterTry)
  let finallyBody ←
    match stripPrefix (asBytes "finally") remaining with
    | none => some none
    | some after => (extractBraces (trim after)).map fun found => some found.1
  if catchClause.isNone && finallyBody.isNone then none
  else some ⟨tryBody, catchClause, finallyBody⟩

/-- The text part of `parse_switch_statement`: the expression and what follows. -/
def switchParts (src : Bytes) : Option (Bytes × Bytes) := do
  let rest ← afterKeyword "switch" 40 (trim src)
  let (expr, after) ← extractParen (trimStart rest)
  some (expr, trimStart after)

/-- The clauses of a switch statement, read from what follows its expression. -/
def switchClauses (afterExpr : Bytes) : Option (List SwitchCase) :=
  (extractBraces afterExpr).bind fun found => parseSwitchCases found.1

end Walker
end Script
end MuonJs
