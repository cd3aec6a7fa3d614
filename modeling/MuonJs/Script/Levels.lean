import MuonJs.Lib.Descent
import MuonJs.Script.Lexing

/-!
# The levels of the expression parser

The parsers of the compiler by level, the loops of those that have one, and what
each loop does at a token.
-/

namespace MuonJs
namespace Script

open Cache (Bytes asBytes isAsciiDigit)
open Descent (Loop Turn Settles Fails)

/-! ## Loops -/

/-- One turn of a loop over operators that are emitted after their operand. -/
def binaryTurn (ops : List (Bytes × OpCode)) (input : Bytes) : Turn StmtCompiler Bytes :=
  match matchOp ops (skipWs input) with
  | none => .stop (skipWs input)
  | some (op, rest) => .go id (fun sc => sc.emitOp op) rest

/-- One turn of the loop of `parse_comma`. -/
def commaTurn (input : Bytes) : Turn StmtCompiler Bytes :=
  match consume 44 (skipWs input) with
  | none => .stop (skipWs input)
  | some rest => .go (fun sc => sc.emitOp .drop) id rest

/-- One turn of the loop of `parse_expr`. -/
def exprTurn (input : Bytes) : Turn StmtCompiler Bytes :=
  match consume 43 (skipWs input) with
  | some rest => if check 43 rest then .fail else .go id (fun sc => sc.emitOp .add) rest
  | none =>
      match consume 45 (skipWs input) with
      | some rest => if check 45 rest then .fail else .go id (fun sc => sc.emitOp .sub) rest
      | none => .stop (skipWs input)

/-- `parse_comma`. -/
def commaLoop : Loop StmtCompiler Bytes where
  top := parseComma
  operand := parseConditional
  rest := parseCommaRest
  turn := commaTurn
  top_succ _ _ _ := rfl
  rest_succ fuel sc input := by
    rw [parseCommaRest, commaTurn]
    cases consume 44 (skipWs input) <;> rfl

/-- `parse_logical_or`. -/
def orLoop : Loop StmtCompiler Bytes where
  top := parseLogicalOr
  operand := parseLogicalAnd
  rest := parseLogicalOrRest
  turn := binaryTurn [([124, 124], .or)]
  top_succ _ _ _ := rfl
  rest_succ fuel sc input := by
    rw [parseLogicalOrRest, binaryTurn, matchOp]
    cases consumeSeq [124, 124] (skipWs input) <;> rfl

/-- `parse_logical_and`. -/
def andLoop : Loop StmtCompiler Bytes where
  top := parseLogicalAnd
  operand := parseComparison
  rest := parseLogicalAndRest
  turn := binaryTurn [([38, 38], .and)]
  top_succ _ _ _ := rfl
  rest_succ fuel sc input := by
    rw [parseLogicalAndRest, binaryTurn, matchOp]
    cases consumeSeq [38, 38] (skipWs input) <;> rfl

/-- `parse_comparison`. -/
def comparisonLoop : Loop StmtCompiler Bytes where
  top := parseComparison
  operand := parseAssignment
  rest := parseComparisonRest
  turn := binaryTurn comparisonOps
  top_succ _ _ _ := rfl
  rest_succ fuel sc input := by
    rw [parseComparisonRest, binaryTurn]
    cases matchOp comparisonOps (skipWs input) <;> rfl

/-- `parse_expr`. -/
def exprLoop : Loop StmtCompiler Bytes where
  top := parseExpr
  operand := parseTerm
  rest := parseExprRest
  turn := exprTurn
  top_succ _ _ _ := rfl
  rest_succ fuel sc input := by
    rw [parseExprRest, exprTurn]
    cases consume 43 (skipWs input) with
    | some rest =>
        dsimp only
        split <;> rfl
    | none =>
        cases consume 45 (skipWs input) with
        | some rest =>
            dsimp only
            split <;> rfl
        | none => rfl

/-- `parse_term`. -/
def termLoop : Loop StmtCompiler Bytes where
  top := parseTerm
  operand := parseFactor
  rest := parseTermRest
  turn := binaryTurn termOps
  top_succ _ _ _ := rfl
  rest_succ fuel sc input := by
    rw [parseTermRest, binaryTurn]
    cases matchOp termOps (skipWs input) <;> rfl

/-! ## Levels -/

/-- The levels with a loop. -/
inductive Chain
  | comma | or | and | comparison | expr | term
  deriving DecidableEq

/-- The loop of a level. -/
def Chain.loop : Chain → Loop StmtCompiler Bytes
  | .comma => commaLoop
  | .or => orLoop
  | .and => andLoop
  | .comparison => comparisonLoop
  | .expr => exprLoop
  | .term => termLoop

/-- The rank of a level among the parsers. -/
def Chain.rank : Chain → ℕ
  | .comma => 1
  | .or => 4
  | .and => 5
  | .comparison => 6
  | .expr => 8
  | .term => 9

/-- The rank of the operands of a level. -/
def Chain.operandRank : Chain → ℕ
  | .comma => 3
  | .or => 5
  | .and => 6
  | .comparison => 7
  | .expr => 9
  | .term => 10

/-- The parser of a rank. -/
def parserAt : ℕ → ℕ → StmtCompiler → Bytes → Parsed
  | 0 | 1 => parseComma
  | 2 | 3 => parseConditional
  | 4 => parseLogicalOr
  | 5 => parseLogicalAnd
  | 6 => parseComparison
  | 7 => parseAssignment
  | 8 => parseExpr
  | 9 => parseTerm
  | 10 => parseFactor
  | _ => parsePostfix

theorem Chain.loop_top (chain : Chain) : chain.loop.top = parserAt chain.rank := by
  cases chain <;> rfl

theorem Chain.loop_operand (chain : Chain) :
    chain.loop.operand = parserAt chain.operandRank := by
  cases chain <;> rfl

theorem Chain.rank_lt (chain : Chain) : chain.rank < chain.operandRank := by
  cases chain <;> decide

/-! ## Tokens that follow -/

/-- The lowest rank that a punctuator takes the expression before it to be an
operand of; a closing one ends them all. -/
def Punct.continues : Punct → ℕ
  | .rparen | .colon => 0
  | .comma => 1
  | .question => 3
  | .or => 4
  | .and => 5
  | .strictEq | .strictNeq | .eq | .neq | .lt | .gt | .le | .ge => 6
  | .assign => 7
  | .addAssign | .subAssign | .add | .sub => 8
  | .mul | .div | .mod => 9
  | .dot | .lparen => 11
  | .not | .bitNot => 12

def Token.continues : Token → ℕ
  | .punct mark => mark.continues
  | _ => 12

/-- The next token, if there is one, continues no expression of a rank. -/
def Follow (rank : ℕ) (more : List Token) : Prop :=
  ∀ token, more.head? = some token → token.continues < rank

theorem Follow.mono {low high : ℕ} {more : List Token} (follow : Follow low more)
    (isLe : low ≤ high) : Follow high more :=
  fun token isNext => (follow token isNext).trans_le isLe

theorem follow_cons {rank : ℕ} {token : Token} {more : List Token} :
    Follow rank (token :: more) ↔ token.continues < rank := by
  constructor
  · exact fun follow => follow token rfl
  · rintro isLt _ ⟨⟩
    exact isLt

/-- The next token is a punctuator, unless there is none. -/
theorem Follow.cases {rank : ℕ} {more : List Token} (follow : Follow rank more)
    (low : rank ≤ 12) :
    more = [] ∨ ∃ mark rest, more = .punct mark :: rest ∧ mark.continues < rank := by
  cases more with
  | nil => exact .inl rfl
  | cons token rest =>
      have isLt := follow token rfl
      cases token with
      | punct mark => exact .inr ⟨mark, rest, rfl, isLt⟩
      | ident name => exact absurd isLt (not_lt.mpr low)
      | number literal => exact absurd isLt (not_lt.mpr low)

/-! ## Turns -/

/-- The input at which no level goes on: an `=` that is not part of an operator. -/
def Stuck (input : Bytes) : Prop :=
  ∃ rest, skipWs input = 61 :: rest ∧ rest.head? ≠ some 61

theorem Stuck.skip {input : Bytes} (stuck : Stuck input) : Stuck (skipWs input) := by
  obtain ⟨rest, isFront, notEq⟩ := stuck
  exact ⟨rest, (skipWs_skipWs input).trans isFront, notEq⟩

theorem stuck_of_assign {tokens : List Token} {input : Bytes}
    (spells : Spells (.punct .assign :: tokens) input) : Stuck input := by
  obtain ⟨after, isFront, -, isEnd⟩ := spells.front
  exact ⟨after, isFront, fun isEq => isEnd 61 isEq List.mem_cons_self⟩

@[simp] theorem consumeSeq_nil (text : Bytes) : consumeSeq [] text = some text := rfl

@[simp] theorem consumeSeq_cons_nil (byte : UInt8) (seq : Bytes) :
    consumeSeq (byte :: seq) [] = none := rfl

@[simp] theorem consumeSeq_cons (first byte : UInt8) (seq text : Bytes) :
    consumeSeq (first :: seq) (byte :: text) =
      if first = byte then consumeSeq seq text else none := by
  unfold consumeSeq stripPrefix
  rw [List.isPrefixOf]
  by_cases same : first = byte
  · rw [if_pos same, same, BEq.rfl, Bool.true_and]
    rfl
  · rw [if_neg same, beq_false_of_ne same, Bool.false_and]
    rfl

namespace Chain

variable {input : Bytes}

/-- A loop stops at an input that is empty. -/
theorem turn_nil (chain : Chain) (isEmpty : skipWs input = []) :
    chain.loop.turn input = .stop [] := by
  cases chain
  case comma =>
    change commaTurn input = _
    rw [commaTurn, isEmpty]
    rfl
  case expr =>
    change exprTurn input = _
    rw [exprTurn, isEmpty]
    rfl
  all_goals
    change binaryTurn _ input = _
    rw [binaryTurn, isEmpty]
    rfl

/-- A loop stops at a punctuator that is no operator of its level. -/
theorem turn_stop
    (chain : Chain) {mark : Punct} {after : Bytes} (isFront : skipWs input = mark.bytes ++ after)
    (low : mark.continues < chain.rank) :
    chain.loop.turn input = .stop (skipWs input) := by
  cases chain
  case comma =>
    change commaTurn input = _
    rw [commaTurn, isFront]
    cases mark <;> first | rfl | exact absurd low (by decide)
  case expr =>
    change exprTurn input = _
    rw [exprTurn, isFront]
    cases mark <;> first | rfl | exact absurd low (by decide)
  all_goals
    change binaryTurn _ input = _
    rw [binaryTurn, isFront]
    cases mark <;> first | rfl | exact absurd low (by decide)

theorem turn_follow
    (chain : Chain) {more : List Token} (spells : Spells more input)
    (follow : Follow chain.rank more) : chain.loop.turn input = .stop (skipWs input) := by
  have low : chain.rank ≤ 12 := by cases chain <;> decide
  obtain rfl | ⟨mark, rest, rfl, isLt⟩ := follow.cases low
  · rw [chain.turn_nil spells.skipWs_nil, spells.skipWs_nil]
  · obtain ⟨after, isFront, -, -⟩ := spells.front
    exact chain.turn_stop isFront isLt

/-- Every loop stops where a parse is stuck. -/
theorem turn_stuck (chain : Chain) (stuck : Stuck input) :
    ∃ left, chain.loop.turn input = .stop left ∧ Stuck left := by
  refine ⟨skipWs input, ?_, stuck.skip⟩
  obtain ⟨rest, isFront, notEq⟩ := stuck
  cases chain
  case comma =>
    change commaTurn input = _
    rw [commaTurn, isFront]
    rfl
  case expr =>
    change exprTurn input = _
    rw [exprTurn, isFront]
    rfl
  case comparison =>
    change binaryTurn comparisonOps input = _
    rw [binaryTurn, isFront]
    cases rest with
    | nil => rfl
    | cons byte rest =>
        have notByte : (61 : UInt8) ≠ byte := fun same => notEq (same ▸ rfl)
        simp [matchOp, comparisonOps, notByte]
  all_goals
    change binaryTurn _ input = _
    rw [binaryTurn, isFront]
    rfl

end Chain

/-- The level of a binary operator. -/
def BinaryOp.chain : BinaryOp → Chain
  | .or => .or
  | .and => .and
  | .strictEq | .strictNeq | .eq | .neq | .lt | .gt | .le | .ge => .comparison
  | .add | .sub => .expr
  | .mul | .div | .mod => .term

/-- The loop of its level goes on at a binary operator. -/
theorem BinaryOp.turn_go
    (op : BinaryOp) {tokens : List Token} {input : Bytes}
    (spells : Spells (.punct op.punct :: tokens) input) :
    ∃ after, Spells tokens after ∧
      op.chain.loop.turn input = .go id (fun sc => sc.emitOp op.opCode) after := by
  obtain ⟨after, isFront, others, isEnd⟩ := spells.front
  refine ⟨after, others, ?_⟩
  have notEnd : ∀ byte ∈ op.punct.extensions, after.head? ≠ some byte :=
    fun byte isLonger isNext => isEnd byte isNext isLonger
  have isInput : skipWs input = op.punct.bytes ++ after := isFront
  cases op
  case add | sub =>
    have notSame := notEnd _ List.mem_cons_self
    change exprTurn input = _
    rw [exprTurn, isInput]
    simp [Punct.bytes, BinaryOp.punct, consume, check, notSame, BinaryOp.opCode]
  all_goals
    change binaryTurn _ input = _
    rw [binaryTurn, isInput]
    cases after with
    | nil => rfl
    | cons byte after =>
        simp [Punct.extensions, BinaryOp.punct] at notEnd
        simp [matchOp, comparisonOps, termOps, Punct.bytes, BinaryOp.punct, BinaryOp.opCode,
          notEnd, eq_comm]

/-- The loop of `parse_comma` goes on at a comma. -/
theorem commaTurn_go
    {tokens : List Token} {input : Bytes} (spells : Spells (.punct .comma :: tokens) input) :
    ∃ after, Spells tokens after ∧
      commaLoop.turn input = .go (fun sc => sc.emitOp .drop) id after := by
  obtain ⟨after, isFront, others, isEnd⟩ := spells.front
  refine ⟨after, others, ?_⟩
  change commaTurn input = _
  rw [commaTurn, isFront]
  rfl

end Script
end MuonJs
