import MuonJs.Script.Compiler

/-!
# The expression grammar

The expressions of ECMAScript 5 over names, decimal numbers, parentheses,
assignment, the conditional, logical, equality, relational, additive,
multiplicative and unary operators, calls, member access and comma: the trees,
the token sequences that derive from the grammar, their spellings, and the code
that the compiler emits for a tree when it groups as the grammar does.
-/

namespace MuonJs
namespace Script

open Cache (Bytes asBytes isAsciiDigit parseF64)

/-! ## Tokens -/

/-- A name. -/
structure Name where
  bytes : Bytes
  valid : isValidIdentifier bytes = true

/-- The marks of an exponent, with their signs. -/
def exponentMarks : List Bytes := [[101], [69], [101, 43], [101, 45], [69, 43], [69, 45]]

/-- A decimal literal: digits, a point and digits, an exponent. -/
structure Decimal where
  whole : Bytes
  fraction : Option Bytes
  exponent : Option (Bytes × Bytes)
  wholeDigits : whole.all isAsciiDigit = true
  fractionDigits : ∀ digits, fraction = some digits → digits.all isAsciiDigit = true
  exponentDigits : ∀ mark digits, exponent = some (mark, digits) →
    mark ∈ exponentMarks ∧ digits ≠ [] ∧ digits.all isAsciiDigit = true
  notEmpty : whole ≠ [] ∨ ∃ digits, fraction = some digits ∧ digits ≠ []

/-- The text of a decimal literal. -/
def Decimal.bytes (literal : Decimal) : Bytes :=
  literal.whole ++ (literal.fraction.elim [] fun digits => 46 :: digits) ++
    literal.exponent.elim [] fun (mark, digits) => mark ++ digits

/-- The punctuators. -/
inductive Punct
  | lparen | rparen | dot | comma | question | colon
  | assign | addAssign | subAssign
  | or | and | strictEq | strictNeq | eq | neq | lt | gt | le | ge
  | add | sub | mul | div | mod | not | bitNot
  deriving DecidableEq

/-- The text of a punctuator. -/
def Punct.bytes : Punct → Bytes
  | .lparen => [40]
  | .rparen => [41]
  | .dot => [46]
  | .comma => [44]
  | .question => [63]
  | .colon => [58]
  | .assign => [61]
  | .addAssign => [43, 61]
  | .subAssign => [45, 61]
  | .or => [124, 124]
  | .and => [38, 38]
  | .strictEq => [61, 61, 61]
  | .strictNeq => [33, 61, 61]
  | .eq => [61, 61]
  | .neq => [33, 61]
  | .lt => [60]
  | .gt => [62]
  | .le => [60, 61]
  | .ge => [62, 61]
  | .add => [43]
  | .sub => [45]
  | .mul => [42]
  | .div => [47]
  | .mod => [37]
  | .not => [33]
  | .bitNot => [126]

/-- The bytes that make a longer token, or a comment, of a punctuator. -/
def Punct.extensions : Punct → Bytes
  | .dot => [48, 49, 50, 51, 52, 53, 54, 55, 56, 57]
  | .assign => [61]
  | .eq => [61]
  | .neq => [61]
  | .lt => [60, 61]
  | .gt => [61, 62]
  | .ge => [61]
  | .add => [43, 61]
  | .sub => [45, 61]
  | .mul => [61]
  | .div => [42, 47, 61]
  | .mod => [61]
  | .not => [61]
  | _ => []

/-- A token. -/
inductive Token
  | ident (name : Name)
  | number (literal : Decimal)
  | punct (mark : Punct)

/-- The text of a token. -/
def Token.bytes : Token → Bytes
  | .ident name => name.bytes
  | .number literal => literal.bytes
  | .punct mark => mark.bytes

/-- Whether a token ends where a byte follows. -/
def Token.EndsAt : Token → UInt8 → Prop
  | .ident _, byte => isIdentByte byte = false
  | .number literal, byte =>
      isIdentByte byte = false ∧
        (byte = 46 → literal.fraction.isSome = true ∨ literal.exponent.isSome = true)
  | .punct mark, byte => byte ∉ mark.extensions

/-- The white space between tokens. -/
def isSpace (byte : UInt8) : Bool := byte = 32 || byte = 10 || byte = 13 || byte = 9

/-- The text spells the tokens, with white space around them wherever it keeps
them apart. -/
inductive Spells : List Token → Bytes → Prop
  | nil {space : Bytes} (isSpaces : ∀ byte ∈ space, isSpace byte = true) : Spells [] space
  | cons {token : Token} {tokens : List Token} {space text : Bytes}
      (isSpaces : ∀ byte ∈ space, isSpace byte = true)
      (isEnd : ∀ byte, text.head? = some byte → token.EndsAt byte)
      (spells : Spells tokens text) : Spells (token :: tokens) (space ++ token.bytes ++ text)

/-! ## Expressions -/

/-- The unary operators. -/
inductive UnaryOp
  | plus | minus | not | bitNot
  deriving DecidableEq

def UnaryOp.punct : UnaryOp → Punct
  | .plus => .add
  | .minus => .sub
  | .not => .not
  | .bitNot => .bitNot

/-- The binary operators. -/
inductive BinaryOp
  | or | and | strictEq | strictNeq | eq | neq | lt | gt | le | ge
  | add | sub | mul | div | mod
  deriving DecidableEq

def BinaryOp.punct : BinaryOp → Punct
  | .or => .or
  | .and => .and
  | .strictEq => .strictEq
  | .strictNeq => .strictNeq
  | .eq => .eq
  | .neq => .neq
  | .lt => .lt
  | .gt => .gt
  | .le => .le
  | .ge => .ge
  | .add => .add
  | .sub => .sub
  | .mul => .mul
  | .div => .div
  | .mod => .mod

/-- The level of a binary operator in the grammar; a higher level binds tighter. -/
def BinaryOp.level : BinaryOp → ℕ
  | .or => 4
  | .and => 5
  | .strictEq | .strictNeq | .eq | .neq => 6
  | .lt | .gt | .le | .ge => 7
  | .add | .sub => 8
  | .mul | .div | .mod => 9

/-- The assignment operators. -/
inductive AssignOp
  | plain | add | sub
  deriving DecidableEq

def AssignOp.punct : AssignOp → Punct
  | .plain => .assign
  | .add => .addAssign
  | .sub => .subAssign

/-- The trees of expressions.  Parentheses are nodes, and the arguments of a call
are one comma expression or nothing. -/
inductive Expr
  | ident (name : Name)
  | number (literal : Decimal)
  | paren (inner : Expr)
  | member (obj : Expr) (name : Name)
  | call (func args : Expr)
  | method (obj : Expr) (name : Name) (args : Expr)
  | noArgs
  | unary (op : UnaryOp) (operand : Expr)
  | binary (op : BinaryOp) (left right : Expr)
  | cond (test yes no : Expr)
  | assign (op : AssignOp) (target value : Expr)
  | comma (left right : Expr)

namespace Expr

/-- The level of an expression in the grammar. -/
def level : Expr → ℕ
  | .ident _ | .number _ | .paren _ => 12
  | .member .. | .call .. | .method .. => 11
  | .unary .. => 10
  | .binary op .. => op.level
  | .cond .. => 3
  | .assign .. => 2
  | .comma .. | .noArgs => 1

/-- The tokens of an expression. -/
def tokens : Expr → List Token
  | .ident name => [.ident name]
  | .number literal => [.number literal]
  | .paren inner => .punct .lparen :: inner.tokens ++ [.punct .rparen]
  | .member obj name => obj.tokens ++ [.punct .dot, .ident name]
  | .call func args => func.tokens ++ .punct .lparen :: args.tokens ++ [.punct .rparen]
  | .method obj name args =>
      obj.tokens ++ .punct .dot :: .ident name :: .punct .lparen :: args.tokens ++
        [.punct .rparen]
  | .noArgs => []
  | .unary op operand => .punct op.punct :: operand.tokens
  | .binary op left right => left.tokens ++ .punct op.punct :: right.tokens
  | .cond test yes no =>
      test.tokens ++ .punct .question :: yes.tokens ++ .punct .colon :: no.tokens
  | .assign op target value => target.tokens ++ .punct op.punct :: value.tokens
  | .comma left right => left.tokens ++ .punct .comma :: right.tokens

/-- Whether an expression is a member access, the callee of a method call. -/
def isMember : Expr → Bool
  | .member .. => true
  | _ => false

/-- Whether there are no arguments. -/
def isNoArgs : Expr → Bool
  | .noArgs => true
  | _ => false

/-- The tree derives from the grammar: every operand has the level that its place
asks for. -/
def Derivable : Expr → Prop
  | .ident _ | .number _ => True
  | .paren inner => inner.Derivable
  | .member obj _ => 11 ≤ obj.level ∧ obj.Derivable
  | .call func args =>
      11 ≤ func.level ∧ func.isMember = false ∧ func.Derivable ∧
        (args.isNoArgs = true ∨ args.Derivable)
  | .method obj _ args =>
      11 ≤ obj.level ∧ obj.Derivable ∧ (args.isNoArgs = true ∨ args.Derivable)
  | .noArgs => False
  | .unary _ operand => 10 ≤ operand.level ∧ operand.Derivable
  | .binary op left right =>
      op.level ≤ left.level ∧ op.level < right.level ∧ left.Derivable ∧ right.Derivable
  | .cond test yes no =>
      3 < test.level ∧ 2 ≤ yes.level ∧ 2 ≤ no.level ∧ test.Derivable ∧ yes.Derivable ∧
        no.Derivable
  | .assign _ target value =>
      11 ≤ target.level ∧ 2 ≤ value.level ∧ target.Derivable ∧ value.Derivable
  | .comma left right => 2 ≤ right.level ∧ left.Derivable ∧ right.Derivable

/-- The expressions that the compiler groups as the grammar does: no relational
expression stands bare to the right of an equality operator, and no equality,
relational, logical or conditional expression bare to the right of an assignment. -/
def Grouped : Expr → Prop
  | .ident _ | .number _ | .noArgs => True
  | .paren inner => inner.Grouped
  | .member obj _ => obj.Grouped
  | .call func args => func.Grouped ∧ args.Grouped
  | .method obj _ args => obj.Grouped ∧ args.Grouped
  | .unary _ operand => operand.Grouped
  | .binary op left right =>
      (op.level = 6 → right.level ≠ 7) ∧ left.Grouped ∧ right.Grouped
  | .cond test yes no => test.Grouped ∧ yes.Grouped ∧ no.Grouped
  | .assign _ target value =>
      (value.level ≤ 2 ∨ 8 ≤ value.level) ∧ target.Grouped ∧ value.Grouped
  | .comma left right => left.Grouped ∧ right.Grouped

/-- Put an argument in parentheses. -/
def close (isArgs : Bool) (e : Expr) : Expr := if isArgs then .paren e else e

/-- The same expression with parentheses around every operand and argument. -/
def full (isArgs : Bool) : Expr → Expr
  | .ident name => close isArgs (.ident name)
  | .number literal => close isArgs (.number literal)
  | .paren inner => close isArgs (.paren (inner.full false))
  | .member obj name => close isArgs (.member (obj.full false) name)
  | .call func args => close isArgs (.call (func.full false) (args.full true))
  | .method obj name args => close isArgs (.method (obj.full false) name (args.full true))
  | .noArgs => .noArgs
  | .unary op operand => close isArgs (.unary op (.paren (operand.full false)))
  | .binary op left right =>
      close isArgs (.binary op (.paren (left.full false)) (.paren (right.full false)))
  | .cond test yes no =>
      close isArgs (.cond (.paren (test.full false)) (.paren (yes.full false))
        (.paren (no.full false)))
  | .assign op target value =>
      close isArgs (.assign op (target.full false) (.paren (value.full false)))
  | .comma left right =>
      if isArgs then .comma (left.full true) (.paren (right.full false))
      else .comma (.paren (left.full false)) (.paren (right.full false))

end Expr

/-! ## Code -/

/-- The instruction of an operator; none for the unary plus. -/
def UnaryOp.emit (op : UnaryOp) (sc : StmtCompiler) : StmtCompiler :=
  match op with
  | .plus => sc
  | .minus => sc.emitOp .neg
  | .not => sc.emitOp .not
  | .bitNot => sc.emitOp .bitNot

def BinaryOp.opCode : BinaryOp → OpCode
  | .or => .or
  | .and => .and
  | .strictEq => .strictEq
  | .strictNeq => .strictNeq
  | .eq => .eq
  | .neq => .neq
  | .lt => .lt
  | .gt => .gt
  | .le => .le
  | .ge => .ge
  | .add => .add
  | .sub => .sub
  | .mul => .mul
  | .div => .div
  | .mod => .mod

namespace StmtCompiler

/-- Load a name. -/
def emitName (sc : StmtCompiler) (name : Bytes) : StmtCompiler :=
  if name = asBytes "true" then emitOn .const (sc.pushConst (.bool true))
  else if name = asBytes "false" then emitOn .const (sc.pushConst (.bool false))
  else if name = asBytes "null" then emitOn .const (sc.pushConst .null)
  else if name = asBytes "undefined" then emitOn .const sc.addUndefinedConst
  else if name = asBytes "Number" then emitOn .loadGlobal (sc.addStringConst name)
  else
    match sc.findLocal name with
    | some slot => sc.emitInst .loadLocal slot
    | none => emitOn .loadGlobal (sc.addStringConst name)

/-- Store the value on the stack under a name, and leave it there. -/
def emitStore (sc : StmtCompiler) (name : Bytes) : StmtCompiler :=
  match sc.findLocal name with
  | some slot => sc.storeLocal slot
  | none => emitOn .storeGlobal (sc.addStringConst name)

end StmtCompiler

namespace Expr

/-- The number of arguments. -/
def argc : Expr → UInt32
  | .noArgs => 0
  | .comma left _ => left.argc + 1
  | _ => 1

/-- Whether an expression is the name `Number`, calls of which are an instruction. -/
def isNumberName : Expr → Bool
  | .ident name => name.bytes = asBytes "Number"
  | _ => false

/-- Emit the code of an expression; of arguments, without dropping any.  There is
none for an assignment to something else than a name, for `-=` on a global, for an
assignment that is the operand of `+=` or `-=`, and for `Number()`. -/
def emit (isArgs : Bool) : Expr → StmtCompiler → Option StmtCompiler
  | .ident name, sc => some (sc.emitName name.bytes)
  | .number literal, sc => (parseF64 literal.bytes).map sc.emitConst
  | .paren inner, sc => inner.emit false sc
  | .member obj name, sc =>
      (obj.emit false sc).map fun sc => (sc.emitStringConst name.bytes).emitOp .getProp
  | .call func args, sc =>
      if func.isNumberName then
        if args.isNoArgs then none
        else (args.emit false sc).map fun sc => sc.emitOp .toNumber
      else
        (func.emit false sc).bind fun sc =>
          (args.emit true sc).map fun sc => sc.emitInst .call args.argc
  | .method obj name args, sc =>
      (obj.emit false sc).bind fun sc =>
        (args.emit true (((sc.emitOp .dup).emitStringConst name.bytes).emitOp .getProp)).map
          fun sc => sc.emitInst .callMethod args.argc
  | .noArgs, sc => some sc
  | .unary op operand, sc => (operand.emit false sc).map op.emit
  | .binary op left right, sc =>
      (left.emit false sc).bind fun sc =>
        (right.emit false sc).map fun sc => sc.emitOp op.opCode
  | .cond test yes no, sc =>
      (test.emit false sc).bind fun sc =>
        (yes.emit false (sc.emitOp .jumpIfFalse)).bind fun chosen =>
          (no.emit false ((chosen.emitOp .jump).patchJump sc.func.code.length)).map
            fun sc => sc.patchJump chosen.func.code.length
  | .assign op (.ident name) value, sc =>
      match op with
      | .plain => (value.emit false sc).map fun sc => sc.emitStore name.bytes
      | .add =>
          if value.level = 2 then none
          else
            match sc.findLocal name.bytes with
            | some slot =>
                (value.emit false (sc.emitInst .loadLocal slot)).map fun sc =>
                  (sc.emitOp .add).storeLocal slot
            | none =>
                (value.emit false (StmtCompiler.emitOn .loadGlobal
                  (sc.addStringConst name.bytes))).map fun sc =>
                    StmtCompiler.emitOn .storeGlobal ((sc.emitOp .add).addStringConst name.bytes)
      | .sub =>
          if value.level = 2 then none
          else
            (sc.findLocal name.bytes).bind fun slot =>
              (value.emit false (sc.emitInst .loadLocal slot)).map fun sc =>
                (sc.emitOp .sub).storeLocal slot
  | .assign .., _ => none
  | .comma left right, sc =>
      (left.emit isArgs sc).bind fun sc =>
        right.emit false (if isArgs then sc else sc.emitOp .drop)

end Expr

end Script
end MuonJs
