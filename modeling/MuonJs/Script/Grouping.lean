import MuonJs.Script.Operands

/-!
# Grouping

Every derivable expression that the compiler groups as the grammar does is read
by the parsers of its rank, one lemma for each kind of expression.
-/

namespace MuonJs
namespace Script

open Cache (Bytes asBytes)
open Descent (Loop Turn Settles Fails)

namespace Expr

/-! ## Operators -/

/-- The parser of factors at a unary operator. -/
theorem parseFactor_unary
    (op : UnaryOp) {more : List Token} {text : Bytes}
    (spells : Spells (.punct op.punct :: more) text) (sc : StmtCompiler) :
    ∃ after, Spells more after ∧ ∀ fuel, parseFactor (fuel + 1) sc text =
      (parseFactor fuel sc after).map fun pair => (op.emit pair.1, pair.2) := by
  obtain ⟨after, isFront, spellsAfter, -⟩ := spells.front
  refine ⟨after, spellsAfter, fun fuel => ?_⟩
  have isText : skipWs text = op.punct.bytes ++ after := isFront
  rw [parseFactor, isText]
  cases op with
  | plus =>
      change parseFactor fuel sc after = _
      cases parseFactor fuel sc after <;> rfl
  | minus | not | bitNot =>
      change Option.bind (parseFactor fuel sc after) _ = _
      cases parseFactor fuel sc after <;> rfl

theorem le_rank {e : Expr} {bound : ℕ} (high : bound ≤ e.level) (notRel : 7 ≠ e.level)
    : bound ≤ e.rank := by
  unfold rank
  split_ifs <;> omega

theorem reads_unary {op : UnaryOp} {operand : Expr}
    (derivable : (Expr.unary op operand).Derivable) (reads : operand.Reads) :
    (Expr.unary op operand).Reads := by
  have high : 10 ≤ operand.level := derivable.1
  have highRank : 10 ≤ operand.rank := le_rank high (by omega)
  have isRank : (Expr.unary op operand).rank = 10 := rfl
  refine reads_of_rank derivable (fun high => ?_) (fun _ => ?_) (fun chain same => ?_)
    fun isComma => ?_
  · rw [isRank] at high
    exact absurd high (by decide)
  · intro sc text more spells follow
    obtain ⟨after, spellsAfter, isFactor⟩ := parseFactor_unary op spells sc
    have comes := reads.closed 10 (by decide) (by decide) highRank (by decide) sc after more
      spellsAfter follow
    exact ((comes.map op.emit).congr isFactor).of_succ
  · rw [isRank] at same
    cases chain <;> cases same
  · cases isComma

theorem rank_binary (op : BinaryOp) (left right : Expr) :
    (Expr.binary op left right).rank = op.chain.rank := by
  cases op <;> rfl

/-- The operands of a derivable and grouped operation have the ranks that the
parser asks for. -/
theorem binary_ranks {op : BinaryOp} {left right : Expr}
    (derivable : (Expr.binary op left right).Derivable)
    (grouped : (Expr.binary op left right).Grouped) :
    op.chain.rank ≤ left.rank ∧ op.chain.operandRank ≤ right.rank := by
  obtain ⟨isLeft, isRight, -, -⟩ := derivable
  have notBare : op.level = 6 → right.level ≠ 7 := grouped.1
  unfold rank
  cases op <;>
    simp only [BinaryOp.level, BinaryOp.chain, Chain.rank, Chain.operandRank, true_implies,
      ne_eq] at * <;>
    constructor <;> split_ifs <;> omega

theorem chain_eq_of_rank {chain other : Chain} (same : chain.rank = other.rank) :
    chain = other := by
  cases chain <;> cases other <;> first | rfl | cases same

/-- What the loop of its level leaves open is read by all parsers below. -/
theorem reads_of_open {e : Expr} {chain : Chain} (derivable : e.Derivable)
    (isRank : e.rank = chain.rank) (isOpen : e.Open chain)
    (openArgs : e.level = 1 → e.OpenArgs) : e.Reads := by
  refine reads_of_rank derivable (fun high => ?_) (fun _ => ?_) (fun other same => ?_) openArgs
  · rw [isRank] at high
    cases chain <;> exact absurd high (by decide)
  · rw [isRank]
    exact closed_of_open isOpen
  · rw [chain_eq_of_rank (same.trans isRank)]
    exact isOpen

/-- An operand, an operator and an operand. -/
theorem open_go
    {chain : Chain} {left right : Expr} {mark : Punct} {before after : StmtCompiler → StmtCompiler}
    (turn : ∀ {tokens : List Token} {input : Bytes}, Spells (.punct mark :: tokens) input →
      ∃ inner, Spells tokens inner ∧ chain.loop.turn input = .go before after inner)
    (low : mark.continues < chain.operandRank) (isOpen : left.Open chain)
    (closed : right.Closed chain.operandRank) {sc : StmtCompiler} {text : Bytes}
    {more : List Token}
    (spells : Spells (left.tokens ++ .punct mark :: (right.tokens ++ more)) text)
    (follow : Follow chain.operandRank more) :
    ComesOpen ((left.emit false sc).bind fun sc => (right.emit false (before sc)).map after) more
      chain.loop.rest fun fuel => chain.loop.top fuel sc text := by
  have comes := isOpen sc text _ spells (follow_cons.mpr low)
  constructor
  · intro result isEmitted
    obtain ⟨first, isFirst, isRest⟩ := Option.bind_eq_some_iff.mp isEmitted
    obtain ⟨second, isSecond, rfl⟩ := Option.map_eq_some_iff.mp isRest
    obtain ⟨rest, spellsRest, goesOn⟩ := comes.1 first isFirst
    obtain ⟨inner, spellsInner, isGo⟩ := turn spellsRest
    have comesRight := closed (before first) inner more spellsInner follow
    rw [← chain.loop_operand] at comesRight
    obtain ⟨behind, spellsBehind, settles⟩ := comesRight.1 second isSecond
    exact ⟨behind, spellsBehind, fun outcome others =>
      goesOn outcome (chain.loop.rest_go isGo settles others)⟩
  · intro isNone
    cases isFirst : left.emit false sc with
    | none => exact comes.2 isFirst
    | some first =>
        rw [isFirst] at isNone
        obtain ⟨rest, spellsRest, goesOn⟩ := comes.1 first isFirst
        obtain ⟨inner, spellsInner, isGo⟩ := turn spellsRest
        have comesRight := closed (before first) inner more spellsInner follow
        rw [← chain.loop_operand] at comesRight
        obtain ⟨outcome, settles, stuck⟩ :=
          chain.loop.rest_fails (fun _ stuck => chain.turn_stuck stuck) isGo
            (comesRight.2 (Option.map_eq_none_iff.mp isNone))
        exact ⟨outcome, goesOn outcome settles, stuck⟩

theorem reads_binary {op : BinaryOp} {left right : Expr}
    (derivable : (Expr.binary op left right).Derivable)
    (grouped : (Expr.binary op left right).Grouped) (readsLeft : left.Reads)
    (readsRight : right.Reads) : (Expr.binary op left right).Reads := by
  obtain ⟨rankLeft, rankRight⟩ := binary_ranks derivable grouped
  refine reads_of_open derivable (rank_binary op left right) ?_ fun isComma => ?_
  · intro sc text more spells follow
    have isTokens : (Expr.binary op left right).tokens ++ more =
        left.tokens ++ .punct op.punct :: (right.tokens ++ more) := by
      simp [tokens]
    rw [isTokens] at spells
    refine open_go (fun spells => op.turn_go spells) ?_ (readsLeft.opened _ rankLeft)
      (readsRight.closed _ ?_ ?_ rankRight ?_) spells follow
    all_goals cases op <;> decide
  · have isOp : op.level = 1 := isComma
    cases op <;> cases isOp

theorem emit_comma (left right : Expr) (sc : StmtCompiler) :
    (Expr.comma left right).emit false sc = (left.emit false sc).bind fun sc =>
      (right.emit false (sc.emitOp .drop)).map id := by
  simp [emit]

theorem openArgs_comma {left right : Expr} (openLeft : left.OpenArgs) (closed : right.Closed 3) :
    (Expr.comma left right).OpenArgs := by
  intro sc text more spells follow
  have isTokens : (Expr.comma left right).tokens ++ more =
      left.tokens ++ .punct .comma :: (right.tokens ++ more) := by
    simp [tokens]
  rw [isTokens] at spells
  have comes := openLeft sc text _ spells (follow_cons.mpr (by decide))
  have isTurn : ∀ before rest, Spells (.punct .comma :: (right.tokens ++ more)) rest →
      ∃ inner, Spells (right.tokens ++ more) inner ∧ ∀ fuel,
        parseArgumentsRest (fuel + 1) left.argc before rest =
          (parseConditional fuel before inner).bind fun pair =>
            parseArgumentsRest fuel (left.argc + 1) pair.1 pair.2 := by
    intro before rest spellsRest
    obtain ⟨inner, spellsInner, isComma⟩ := consume_front rfl spellsRest
    refine ⟨inner, spellsInner, fun fuel => ?_⟩
    rw [parseArgumentsRest, isComma]
    rfl
  rw [emit]
  constructor
  · intro after isEmitted
    obtain ⟨first, isFirst, isSecond⟩ := Option.bind_eq_some_iff.mp isEmitted
    obtain ⟨rest, spellsRest, goesOn⟩ := comes.1 first isFirst
    obtain ⟨inner, spellsInner, turn⟩ := isTurn first rest spellsRest
    obtain ⟨behind, spellsBehind, settles⟩ :=
      (closed first inner more spellsInner (follow.mono (by decide))).1 after isSecond
    refine ⟨behind, spellsBehind, fun outcome others => goesOn outcome ?_⟩
    exact ((settles.bind (fun fuel (pair : StmtCompiler × Bytes) =>
      parseArgumentsRest fuel (left.argc + 1) pair.1 pair.2) others).congr turn).of_succ
  · intro isNone
    cases isFirst : left.emit true sc with
    | none => exact comes.2 isFirst
    | some first =>
        rw [isFirst] at isNone
        obtain ⟨rest, spellsRest, goesOn⟩ := comes.1 first isFirst
        obtain ⟨inner, spellsInner, turn⟩ := isTurn first rest spellsRest
        have fails := (closed first inner more spellsInner (follow.mono (by decide))).2 isNone
        exact goesOn none (((fails.bind_none (fun fuel (pair : StmtCompiler × Bytes) =>
          parseArgumentsRest fuel (left.argc + 1) pair.1 pair.2) fun after left stuck =>
            parseArgumentsRest_stuck _ after stuck).congr turn).of_succ)

theorem reads_comma {left right : Expr} (derivable : (Expr.comma left right).Derivable)
    (readsLeft : left.Reads) (readsRight : right.Reads) : (Expr.comma left right).Reads := by
  obtain ⟨high, derivableLeft, derivableRight⟩ := derivable
  have rankRight : 3 ≤ right.rank := by
    have notTwo := right.rank_ne_two
    unfold rank at *
    split_ifs at * <;> omega
  have closed := readsRight.closed 3 (by decide) (by decide) rankRight (by decide)
  refine reads_of_open ⟨high, derivableLeft, derivableRight⟩
    (rfl : _ = Chain.comma.rank) ?_ fun _ => openArgs_comma readsLeft.openArgs closed
  intro sc text more spells follow
  have isTokens : (Expr.comma left right).tokens ++ more =
      left.tokens ++ .punct .comma :: (right.tokens ++ more) := by
    simp [tokens]
  rw [isTokens] at spells
  rw [emit_comma]
  exact open_go commaTurn_go (by decide) (readsLeft.opened .comma derivableLeft.rank_pos) closed
    spells follow

/-! ## The conditional -/

theorem conditionalRest_question
    {more : List Token} {left : Bytes} (spells : Spells (.punct .question :: more) left) :
    ∃ inner, Spells more inner ∧ ∀ fuel sc, conditionalRest fuel (sc, left) =
      (parseConditional fuel (sc.emitOp .jumpIfFalse) inner).bind fun yes =>
        (consume 58 (skipWs yes.2)).bind fun input =>
          (parseConditional fuel ((yes.1.emitOp .jump).patchJump sc.func.code.length) input).map
            fun no => (no.1.patchJump yes.1.func.code.length, no.2) := by
  obtain ⟨inner, spellsInner, isQuestion⟩ := consume_front rfl spells
  refine ⟨inner, spellsInner, fun fuel sc => ?_⟩
  rw [conditionalRest]
  dsimp only
  rw [isQuestion]

theorem reads_cond {test yes no : Expr} (derivable : (Expr.cond test yes no).Derivable)
    (readsTest : test.Reads) (readsYes : yes.Reads) (readsNo : no.Reads) :
    (Expr.cond test yes no).Reads := by
  have isRank : (Expr.cond test yes no).rank = 3 := rfl
  have atLeast : ∀ {e : Expr}, 2 ≤ e.level → 3 ≤ e.rank := by
    intro e high
    have notTwo := e.rank_ne_two
    unfold rank at *
    split_ifs at * <;> omega
  have rankTest : 4 ≤ test.rank := by
    have high : 3 < test.level := derivable.1
    unfold rank
    split_ifs <;> omega
  have rankYes := atLeast derivable.2.1
  have rankNo := atLeast derivable.2.2.1
  refine reads_of_rank derivable (fun high => ?_) (fun _ => ?_) (fun chain same => ?_)
    fun isComma => ?_
  · rw [isRank] at high
    exact absurd high (by decide)
  · intro sc text more spells follow
    have isTokens : (Expr.cond test yes no).tokens ++ more = test.tokens ++
        .punct .question :: (yes.tokens ++ .punct .colon :: (no.tokens ++ more)) := by
      simp [tokens]
    rw [isTokens] at spells
    have comes := readsTest.closed 4 (by decide) (by decide) rankTest (by decide) sc text _ spells
      (follow_cons.mpr (by decide))
    refine ((comes.bind (fun tested left spellsLeft => ?_) fun tested left stuck =>
      conditionalRest_stuck tested stuck).congr fun fuel =>
        parseConditional_eq fuel sc text).of_succ
    obtain ⟨inner, spellsInner, isRest⟩ := conditionalRest_question spellsLeft
    have comesYes := readsYes.closed 3 (by decide) (by decide) rankYes (by decide)
      (tested.emitOp .jumpIfFalse) inner _ spellsInner (follow_cons.mpr (by decide))
    refine (comesYes.bind (fun chosen rest spellsRest => ?_) fun chosen rest stuck => ?_).congr
      fun fuel => isRest fuel tested
    · obtain ⟨behind, spellsBehind, isColon⟩ := consume_front rfl spellsRest
      have comesNo := readsNo.closed 3 (by decide) (by decide) rankNo (by decide)
        ((chosen.emitOp .jump).patchJump tested.func.code.length) behind more spellsBehind follow
      refine (comesNo.map fun sc => sc.patchJump chosen.func.code.length).congr fun fuel => ?_
      dsimp only
      rw [isColon]
      rfl
    · refine .of_none (Settles.of_forall fun fuel => ?_)
      dsimp only
      rw [consume_stuck (by decide) stuck]
      rfl
  · rw [isRank] at same
    cases chain <;> cases same
  · cases isComma

/-! ## Assignments -/

/-- The parser of additions fails at an assignment, as the operand of `+=`. -/
def FailsAsOperand (e : Expr) : Prop :=
  ∀ sc text more, Spells (e.tokens ++ more) text →
    Fails Stuck fun fuel => parseExpr fuel sc text

/-- The loop of `parse_expr` gives up at `+=` and `-=`. -/
theorem parseExprRest_compound
    {mark : Punct} (isCompound : mark = .addAssign ∨ mark = .subAssign) {more : List Token}
    {left : Bytes} (spells : Spells (.punct mark :: more) left) (sc : StmtCompiler) :
    Fails Stuck fun fuel => parseExprRest fuel sc left := by
  obtain ⟨after, isFront, -, -⟩ := spells.front
  have nothing := settles_none (.inr rfl) 9 (by decide) (by decide) (by decide) (61 :: after)
    after (skipWs_of_not_space rfl after) sc
  obtain rfl | rfl := isCompound
  · have isGo : exprLoop.turn left = .go id (fun sc => sc.emitOp .add) (61 :: after) := by
      change exprTurn left = _
      rw [exprTurn, isFront]
      rfl
    exact exprLoop.rest_fails (fun _ stuck => Chain.expr.turn_stuck stuck) isGo
      (.of_none nothing)
  · have isGo : exprLoop.turn left = .go id (fun sc => sc.emitOp .sub) (61 :: after) := by
      change exprTurn left = _
      rw [exprTurn, isFront]
      rfl
    exact exprLoop.rest_fails (fun _ stuck => Chain.expr.turn_stuck stuck) isGo
      (.of_none nothing)

theorem failsAsOperand_assign {op : AssignOp} {target value : Expr}
    (high : 11 ≤ target.level) (reads : target.Reads) :
    (Expr.assign op target value).FailsAsOperand := by
  intro sc text more spells
  have highRank : 11 ≤ target.rank := high.trans (level_le_rank high)
  have isTokens : (Expr.assign op target value).tokens ++ more =
      target.tokens ++ .punct op.punct :: (value.tokens ++ more) := by
    simp [tokens]
  rw [isTokens] at spells
  by_cases isPlain : op = .plain
  · subst isPlain
    have comes := reads.closed 8 (by decide) (by decide) (by omega) (by decide) sc text _ spells
      (follow_cons.mpr (by decide))
    cases isEmitted : target.emit false sc with
    | none => exact comes.2 isEmitted
    | some after =>
        obtain ⟨left, spellsLeft, settles⟩ := comes.1 after isEmitted
        exact .of_stuck settles (stuck_of_assign spellsLeft)
  · have isCompound : op.punct = .addAssign ∨ op.punct = .subAssign := by
      cases op with
      | plain => exact absurd rfl isPlain
      | add => exact .inl rfl
      | sub => exact .inr rfl
    have follow : Follow 9 (.punct op.punct :: (value.tokens ++ more)) := by
      refine follow_cons.mpr ?_
      cases op <;> decide
    have comes := reads.closed 9 (by decide) (by decide) (by omega) (by decide) sc text _ spells
      follow
    cases isEmitted : target.emit false sc with
    | none =>
        exact exprLoop.top_fails (fun _ stuck => Chain.expr.turn_stuck stuck) (comes.2 isEmitted)
    | some after =>
        obtain ⟨left, spellsLeft, settles⟩ := comes.1 after isEmitted
        obtain ⟨outcome, others, stuck⟩ := parseExprRest_compound isCompound spellsLeft after
        exact ⟨outcome, exprLoop.top_settles settles others, stuck⟩

/-- What the operand of `+=` and `-=` comes to. -/
theorem comes_operand {value : Expr} (reads : value.Reads)
    (isOperand : value.level = 2 ∨ 8 ≤ value.level)
    (failsAsOperand : value.level = 2 → value.FailsAsOperand)
    {sc : StmtCompiler} {text : Bytes} {more : List Token}
    (spells : Spells (value.tokens ++ more) text) (follow : Follow 8 more) :
    Comes (if value.level = 2 then none else value.emit false sc) more
      fun fuel => parseExpr fuel sc text := by
  by_cases isAssign : value.level = 2
  · rw [if_pos isAssign]
    exact ⟨fun _ isSome => (by cases isSome), fun _ => failsAsOperand isAssign sc text more spells⟩
  · rw [if_neg isAssign]
    have high : 8 ≤ value.rank := le_rank (by omega) (by omega)
    exact reads.closed 8 (by decide) (by decide) high (by decide) sc text more spells follow

/-- The parser of assignments at a name and an `=`. -/
theorem parseAssignment_plain
    {name : Name} {more : List Token} {text : Bytes}
    (spells : Spells (.ident name :: .punct .assign :: more) text) :
    ∃ inner, Spells more inner ∧ ∀ fuel sc, parseAssignment (fuel + 1) sc text =
      (parseAssignment fuel sc inner).map fun pair =>
        (pair.1.emitStore name.bytes, pair.2) := by
  obtain ⟨after, isName, spellsAfter⟩ := parseIdentifier_name spells.skip
  obtain ⟨inner, isFront, spellsInner, isEnd⟩ := spellsAfter.front
  have isText : skipWs after = 61 :: inner := isFront
  refine ⟨inner, spellsInner, fun fuel sc => ?_⟩
  have notEq : ¬check 61 inner = true := by
    intro isEq
    exact isEnd 61 (of_decide_eq_true isEq) List.mem_cons_self
  have isSingle : consume 61 (61 :: inner) = some inner := rfl
  have notAdd : consumeSeq [43, 61] (61 :: inner) = none := rfl
  have notSub : consumeSeq [45, 61] (61 :: inner) = none := rfl
  rw [parseAssignment]
  dsimp only
  rw [isName]
  dsimp only
  rw [isText, notAdd]
  dsimp only
  rw [notSub]
  dsimp only
  rw [isSingle]
  dsimp only
  rw [if_neg notEq]
  cases parseAssignment fuel sc inner with
  | none => rfl
  | some pair =>
      dsimp only [Option.bind_eq_bind, Option.bind_some, Option.map_some]
      unfold StmtCompiler.emitStore
      cases pair.1.findLocal name.bytes <;> rfl

/-- The parser of assignments at a name and a `+=`: an update of a local, or of a
global. -/
theorem parseAssignment_add
    {name : Name} {more : List Token} {text : Bytes}
    (spells : Spells (.ident name :: .punct .addAssign :: more) text) (sc : StmtCompiler) :
    ∃ inner, Spells more inner ∧
      (∀ slot, sc.findLocal name.bytes = some slot → ∀ fuel,
        parseAssignment (fuel + 1) sc text =
          (parseExpr fuel (sc.emitInst .loadLocal slot) inner).map fun pair =>
            ((pair.1.emitOp .add).storeLocal slot, pair.2)) ∧
      (sc.findLocal name.bytes = none → ∀ fuel,
        parseAssignment (fuel + 1) sc text =
          (parseExpr fuel (StmtCompiler.emitOn .loadGlobal
            (sc.addStringConst name.bytes)) inner).map fun pair =>
              (StmtCompiler.emitOn .storeGlobal
                ((pair.1.emitOp .add).addStringConst name.bytes), pair.2)) := by
  obtain ⟨after, isName, spellsAfter⟩ := parseIdentifier_name spells.skip
  obtain ⟨inner, isFront, spellsInner, -⟩ := spellsAfter.front
  have isText : skipWs after = 43 :: 61 :: inner := isFront
  have isAdd : consumeSeq [43, 61] (43 :: 61 :: inner) = some inner := rfl
  refine ⟨inner, spellsInner, fun slot isLocal fuel => ?_, fun isGlobal fuel => ?_⟩
  · rw [parseAssignment]
    dsimp only
    rw [isName]
    dsimp only
    rw [isText, isAdd]
    dsimp only
    rw [isLocal]
    dsimp only
    cases parseExpr fuel (sc.emitInst .loadLocal slot) inner <;> rfl
  · rw [parseAssignment]
    dsimp only
    rw [isName]
    dsimp only
    rw [isText, isAdd]
    dsimp only
    rw [isGlobal]
    dsimp only
    cases parseExpr fuel (StmtCompiler.emitOn .loadGlobal (sc.addStringConst name.bytes)) inner <;>
      rfl

/-- The parser of assignments at a name and a `-=`: an update of a local; none of
a global. -/
theorem parseAssignment_sub
    {name : Name} {more : List Token} {text : Bytes}
    (spells : Spells (.ident name :: .punct .subAssign :: more) text) (sc : StmtCompiler) :
    ∃ inner, Spells more inner ∧
      (∀ slot, sc.findLocal name.bytes = some slot → ∀ fuel,
        parseAssignment (fuel + 1) sc text =
          (parseExpr fuel (sc.emitInst .loadLocal slot) inner).map fun pair =>
            ((pair.1.emitOp .sub).storeLocal slot, pair.2)) ∧
      (sc.findLocal name.bytes = none → ∀ fuel, parseAssignment (fuel + 1) sc text = none) := by
  obtain ⟨after, isName, spellsAfter⟩ := parseIdentifier_name spells.skip
  obtain ⟨inner, isFront, spellsInner, -⟩ := spellsAfter.front
  have isText : skipWs after = 45 :: 61 :: inner := isFront
  have notAdd : consumeSeq [43, 61] (45 :: 61 :: inner) = none := rfl
  have isSub : consumeSeq [45, 61] (45 :: 61 :: inner) = some inner := rfl
  refine ⟨inner, spellsInner, fun slot isLocal fuel => ?_, fun isGlobal fuel => ?_⟩
  · rw [parseAssignment]
    dsimp only
    rw [isName]
    dsimp only
    rw [isText, notAdd]
    dsimp only
    rw [isSub]
    dsimp only
    rw [isLocal]
    dsimp only
    cases parseExpr fuel (sc.emitInst .loadLocal slot) inner <;> rfl
  · rw [parseAssignment]
    dsimp only
    rw [isName]
    dsimp only
    rw [isText, notAdd]
    dsimp only
    rw [isSub]
    dsimp only
    rw [isGlobal]

/-- An assignment to a name is read by the parser of assignments. -/
theorem closed_assign_name {op : AssignOp} {name : Name} {value : Expr} (reads : value.Reads)
    (high : 2 ≤ value.level) (grouped : value.level ≤ 2 ∨ 8 ≤ value.level)
    (failsAsOperand : value.level = 2 → value.FailsAsOperand) :
    (Expr.assign op (.ident name) value).Closed 7 := by
  intro sc text more spells follow
  have isOperand : value.level = 2 ∨ 8 ≤ value.level := by omega
  have isTokens : (Expr.assign op (.ident name) value).tokens ++ more =
      .ident name :: .punct op.punct :: (value.tokens ++ more) := by
    simp [tokens]
  rw [isTokens] at spells
  have followOperand : Follow 8 more := follow.mono (by decide)
  refine Comes.of_succ ?_
  cases op with
  | plain =>
      have highRank : 7 ≤ value.rank := by
        unfold rank
        split_ifs <;> omega
      obtain ⟨inner, spellsInner, isParsed⟩ := parseAssignment_plain spells
      have comes := reads.closed 7 (by decide) (by decide) highRank (by decide) sc inner more
        spellsInner follow
      exact (comes.map fun sc => sc.emitStore name.bytes).congr fun fuel => isParsed fuel sc
  | add =>
      obtain ⟨inner, spellsInner, isLocal, isGlobal⟩ := parseAssignment_add spells sc
      cases found : sc.findLocal name.bytes with
      | some slot =>
          have isEmit : (Expr.assign .add (.ident name) value).emit false sc =
              (if value.level = 2 then none
                else value.emit false (sc.emitInst .loadLocal slot)).map
                  fun sc => (sc.emitOp .add).storeLocal slot := by
            rw [emit]
            rw [found]
            split <;> rfl
          rw [isEmit]
          exact ((comes_operand reads isOperand failsAsOperand spellsInner followOperand).map
            _).congr (isLocal slot found)
      | none =>
          have isEmit : (Expr.assign .add (.ident name) value).emit false sc =
              (if value.level = 2 then none
                else value.emit false (StmtCompiler.emitOn .loadGlobal
                  (sc.addStringConst name.bytes))).map fun sc =>
                    StmtCompiler.emitOn .storeGlobal
                      ((sc.emitOp .add).addStringConst name.bytes) := by
            rw [emit]
            rw [found]
            split <;> rfl
          rw [isEmit]
          exact ((comes_operand reads isOperand failsAsOperand spellsInner followOperand).map
            _).congr (isGlobal found)
  | sub =>
      obtain ⟨inner, spellsInner, isLocal, isGlobal⟩ := parseAssignment_sub spells sc
      cases found : sc.findLocal name.bytes with
      | some slot =>
          have isEmit : (Expr.assign .sub (.ident name) value).emit false sc =
              (if value.level = 2 then none
                else value.emit false (sc.emitInst .loadLocal slot)).map
                  fun sc => (sc.emitOp .sub).storeLocal slot := by
            rw [emit]
            rw [found]
            split <;> rfl
          rw [isEmit]
          exact ((comes_operand reads isOperand failsAsOperand spellsInner followOperand).map
            _).congr (isLocal slot found)
      | none =>
          have isEmit : (Expr.assign .sub (.ident name) value).emit false sc = none := by
            rw [emit]
            rw [found]
            split <;> rfl
          rw [isEmit]
          exact Comes.nothing.congr (isGlobal found)

/-- An expression that is no name does not start with an assignment to one. -/
theorem notAssigned_postfix {e : Expr} (derivable : e.Derivable) (high : 11 ≤ e.level)
    (notName : ∀ name, e ≠ .ident name) (more : List Token) : NotAssigned (e.tokens ++ more) := by
  cases e with
  | ident name => exact absurd rfl (notName name)
  | number literal => rintro other mark others ⟨⟩
  | paren inner => exact notAssigned_of_punct _ _
  | member obj name =>
      rw [tokens, List.append_assoc]
      exact notAssigned_tokens derivable.2 (by have := derivable.1; omega) _ (notAssign_cons rfl _)
  | call func args =>
      rw [tokens, List.append_assoc, List.append_assoc]
      exact notAssigned_tokens derivable.2.2.1 (by have := derivable.1; omega) _
        (notAssign_cons rfl _)
  | method obj name args =>
      rw [tokens, List.append_assoc, List.append_assoc]
      exact notAssigned_tokens derivable.2.1 (by have := derivable.1; omega) _
        (notAssign_cons rfl _)
  | noArgs => cases derivable
  | unary => exact absurd (show 11 ≤ 10 from high) (by decide)
  | binary op =>
      have high : 11 ≤ op.level := high
      cases op <;> exact absurd high (by decide)
  | cond => exact absurd (show 11 ≤ 3 from high) (by decide)
  | assign => exact absurd (show 11 ≤ 2 from high) (by decide)
  | comma => exact absurd (show 11 ≤ 1 from high) (by decide)

/-- An assignment to something else is not accepted. -/
theorem closed_assign_other {op : AssignOp} {target value : Expr}
    (derivable : (Expr.assign op target value).Derivable) (notName : ∀ name, target ≠ .ident name)
    (reads : target.Reads) : (Expr.assign op target value).Closed 7 := by
  intro sc text more spells follow
  have failsAsOperand : (Expr.assign op target value).FailsAsOperand :=
    failsAsOperand_assign derivable.1 reads
  have fails := failsAsOperand sc (skipWs text) more spells.skip
  have isNone : (Expr.assign op target value).emit false sc = none := by
    cases target with
    | ident name => exact absurd rfl (notName name)
    | _ => rfl
  have notAssigned : NotAssigned ((Expr.assign op target value).tokens ++ more) := by
    rw [tokens, List.append_assoc]
    exact notAssigned_postfix derivable.2.2.1 derivable.1 notName _
  rw [isNone]
  refine ⟨fun _ isSome => (by cases isSome), fun _ => ?_⟩
  exact (fails.congr fun fuel => parseAssignment_settles spells notAssigned fuel sc).of_succ

theorem reads_assign {op : AssignOp} {target value : Expr}
    (derivable : (Expr.assign op target value).Derivable)
    (grouped : (Expr.assign op target value).Grouped) (readsTarget : target.Reads)
    (readsValue : value.Reads) (failsAsOperand : value.level = 2 → value.FailsAsOperand) :
    (Expr.assign op target value).Reads := by
  have isRank : (Expr.assign op target value).rank = 7 := rfl
  refine reads_of_rank derivable (fun high => ?_) (fun _ => ?_) (fun chain same => ?_)
    fun isComma => ?_
  · rw [isRank] at high
    exact absurd high (by decide)
  · by_cases isName : ∃ name, target = .ident name
    · obtain ⟨name, rfl⟩ := isName
      exact closed_assign_name readsValue derivable.2.1 grouped.1 failsAsOperand
    · exact closed_assign_other derivable (fun name same => isName ⟨name, same⟩) readsTarget
  · rw [isRank] at same
    cases chain <;> cases same
  · cases isComma

/-! ## Every expression -/

/-- Every derivable expression that the compiler groups as the grammar does is
read by the parsers of its rank; an assignment is no operand of `+=`. -/
theorem reads (e : Expr) (derivable : e.Derivable) (grouped : e.Grouped) :
    e.Reads ∧ (e.level = 2 → e.FailsAsOperand) := by
  have ofReads : ∀ {e : Expr}, e.level ≠ 2 → e.Reads →
      e.Reads ∧ (e.level = 2 → e.FailsAsOperand) :=
    fun notAssign reads => ⟨reads, fun isAssign => absurd isAssign notAssign⟩
  induction e with
  | ident name => exact ofReads (show 12 ≠ 2 by decide) (reads_ident name)
  | number literal => exact ofReads (show 12 ≠ 2 by decide) (reads_number literal)
  | paren inner ih =>
      exact ofReads (show 12 ≠ 2 by decide) (reads_paren derivable (ih derivable grouped).1)
  | member obj name ih =>
      exact ofReads (show 11 ≠ 2 by decide)
        (reads_member derivable (ih derivable.2 grouped).1)
  | call func args ihFunc ihArgs =>
      exact ofReads (show 11 ≠ 2 by decide) (reads_call derivable
        (ihFunc derivable.2.2.1 grouped.1).1 fun derivableArgs => (ihArgs derivableArgs grouped.2).1)
  | method obj name args ihObj ihArgs =>
      exact ofReads (show 11 ≠ 2 by decide) (reads_method derivable
        (ihObj derivable.2.1 grouped.1).1 fun derivableArgs => (ihArgs derivableArgs grouped.2).1)
  | noArgs => cases derivable
  | unary op operand ih =>
      exact ofReads (show 10 ≠ 2 by decide) (reads_unary derivable (ih derivable.2 grouped).1)
  | binary op left right ihLeft ihRight =>
      have notAssign : op.level ≠ 2 := by cases op <;> decide
      exact ofReads notAssign (reads_binary derivable grouped
        (ihLeft derivable.2.2.1 grouped.2.1).1 (ihRight derivable.2.2.2 grouped.2.2).1)
  | cond test yes no ihTest ihYes ihNo =>
      obtain ⟨-, -, -, derivableTest, derivableYes, derivableNo⟩ := id derivable
      exact ofReads (show 3 ≠ 2 by decide) (reads_cond derivable
        (ihTest derivableTest grouped.1).1 (ihYes derivableYes grouped.2.1).1
        (ihNo derivableNo grouped.2.2).1)
  | assign op target value ihTarget ihValue =>
      have readsTarget := (ihTarget derivable.2.2.1 grouped.2.1).1
      obtain ⟨readsValue, failsAsOperand⟩ := ihValue derivable.2.2.2 grouped.2.2
      exact ⟨reads_assign derivable grouped readsTarget readsValue failsAsOperand,
        fun _ => failsAsOperand_assign derivable.1 readsTarget⟩
  | comma left right ihLeft ihRight =>
      exact ofReads (show 1 ≠ 2 by decide) (reads_comma derivable
        (ihLeft derivable.2.1 grouped.1).1 (ihRight derivable.2.2 grouped.2).1)

end Expr

end Script
end MuonJs
