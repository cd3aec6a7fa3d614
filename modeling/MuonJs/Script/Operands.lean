import MuonJs.Script.Parsing

/-!
# Operands

How the compiler reads names, numbers, parentheses, member accesses and calls.
-/

namespace MuonJs
namespace Script

open Cache (Bytes asBytes isAsciiDigit)
open Descent (Loop Turn Settles Fails)

namespace Expr

/-! ## Primary expressions -/

theorem comesOpen_of_primary
    {emitted : Option StmtCompiler} {more : List Token} {sc : StmtCompiler} {text : Bytes}
    (comes : Comes emitted more fun fuel => parsePrimary fuel sc text) :
    ComesOpen emitted more parsePostfixRest fun fuel => parsePostfix fuel sc text := by
  have isPostfix : ∀ fuel, parsePostfix (fuel + 1) sc text =
      (parsePrimary fuel sc text).bind fun pair => parsePostfixRest fuel pair.1 pair.2 :=
    fun _ => rfl
  constructor
  · intro after isEmitted
    obtain ⟨left, spells, settles⟩ := comes.1 after isEmitted
    exact ⟨left, spells, fun outcome others =>
      ((settles.bind (fun fuel (pair : StmtCompiler × Bytes) =>
        parsePostfixRest fuel pair.1 pair.2) others).congr isPostfix).of_succ⟩
  · intro isNone
    exact (((comes.2 isNone).bind (fun fuel (pair : StmtCompiler × Bytes) =>
      parsePostfixRest fuel pair.1 pair.2) fun after left stuck =>
        parsePostfixRest_stuck after stuck).congr isPostfix).of_succ

theorem primary_of_ident {first : UInt8} (isStart : isIdentStart first = true) :
    first ≠ 40 ∧ first ≠ 39 ∧ first ≠ 34 ∧ isAsciiDigit first = false ∧ first ≠ 46 := by
  simp [isAsciiDigit, isIdentStart, UInt8.le_iff_toNat_le, ← UInt8.toNat_inj] at *
  omega

theorem primary_of_decimal {first : UInt8} (isFirst : isAsciiDigit first = true ∨ first = 46) :
    first ≠ 40 ∧ first ≠ 39 ∧ first ≠ 34 := by
  simp [isAsciiDigit, UInt8.le_iff_toNat_le, ← UInt8.toNat_inj] at *
  omega

theorem noParen_of_next
    {more : List Token} {text : Bytes} (spells : Spells more text)
    (notParen : ∀ others, more ≠ .punct .lparen :: others) :
    consume 40 (skipWs text) = none := by
  cases more with
  | nil =>
      rw [spells.skipWs_nil]
      rfl
  | cons token others =>
      obtain ⟨after, isFront, -, -⟩ := spells.front
      rw [isFront]
      cases token with
      | ident name =>
          obtain ⟨first, rest, isName, isStart, -⟩ := name.exists_cons
          change consume 40 (name.bytes ++ after) = none
          rw [isName]
          exact if_neg (primary_of_ident isStart).1
      | number literal =>
          obtain ⟨first, rest, isLiteral, isFirst⟩ := literal.exists_cons
          change consume 40 (literal.bytes ++ after) = none
          rw [isLiteral]
          exact if_neg (primary_of_decimal isFirst).1
      | punct mark =>
          cases mark
          case lparen => exact absurd rfl (notParen others)
          all_goals rfl

/-- A name is no parenthesis, string or number. -/
theorem tests_of_name
    {name : Name} {more : List Token} {text : Bytes}
    (spells : Spells (.ident name :: more) text) :
    consume 40 (skipWs text) = none ∧
      ¬(check 39 (skipWs text) = true ∨ check 34 (skipWs text) = true) ∧
      ¬((skipWs text).head?.any fun byte => isAsciiDigit byte || byte = 46) = true := by
  obtain ⟨behind, isFront, -, -⟩ := spells.front
  obtain ⟨first, rest, isName, isStart, -⟩ := name.exists_cons
  obtain ⟨notParen, notSingle, notDouble, notDigit, notPoint⟩ := primary_of_ident isStart
  have isText : skipWs text = first :: (rest ++ behind) := by
    rw [isFront, ← List.cons_append, ← isName]
    rfl
  rw [isText]
  refine ⟨if_neg notParen, ?_, ?_⟩
  · simp [check, notSingle, notDouble]
  · simp [notDigit, notPoint]

/-- The name that a primary expression starts with is loaded. -/
theorem parsePrimary_name
    {name : Name} {more : List Token} {text : Bytes}
    (spells : Spells (.ident name :: more) text)
    (notCall : name.bytes = asBytes "Number" → ∀ others, more ≠ .punct .lparen :: others)
    (sc : StmtCompiler) :
    ∃ left, Spells more left ∧
      ∀ fuel, parsePrimary (fuel + 1) sc text = some (sc.emitName name.bytes, left) := by
  obtain ⟨after, isParsed, spellsAfter⟩ := parseIdentifier_name spells.skip
  obtain ⟨noParen, noQuote, noNumber⟩ := tests_of_name spells
  have isPrimary : ∀ left, (name.bytes = asBytes "Number" →
      consume 40 (skipWs after) = none ∧ left = skipWs after) →
      (name.bytes ≠ asBytes "Number" → left = after) →
      ∀ fuel, parsePrimary (fuel + 1) sc text = some (sc.emitName name.bytes, left) := by
    intro left ofNumber ofOther fuel
    rw [parsePrimary]
    dsimp only
    rw [noParen]
    dsimp only
    rw [if_neg noQuote, if_neg noNumber, isParsed]
    unfold StmtCompiler.emitName
    by_cases isNumber : name.bytes = asBytes "Number"
    · obtain ⟨noCall, rfl⟩ := ofNumber isNumber
      dsimp only
      rw [isNumber, noCall]
      rfl
    · rw [if_neg isNumber, ofOther isNumber]
      dsimp only
      rw [if_neg isNumber]
      split_ifs
      all_goals first | rfl | (cases sc.findLocal name.bytes <;> rfl)
  by_cases isNumber : name.bytes = asBytes "Number"
  · exact ⟨skipWs after, spellsAfter.skip, isPrimary _
      (fun _ => ⟨noParen_of_next spellsAfter (notCall isNumber), rfl⟩)
      fun notNumber => absurd isNumber notNumber⟩
  · exact ⟨after, spellsAfter, isPrimary _ (fun number => absurd number isNumber) fun _ => rfl⟩

theorem reads_of_openPostfix {e : Expr} (derivable : e.Derivable) (high : 11 ≤ e.level)
    (isOpen : e.OpenPostfix) : e.Reads := by
  have highRank : 11 ≤ e.rank := by
    unfold rank
    split_ifs <;> omega
  refine reads_of_rank derivable (fun _ => isOpen) (fun low => by omega) ?_ (fun low => by omega)
  intro chain same
  rw [← same] at highRank
  cases chain <;> exact absurd highRank (by decide)

theorem reads_ident (name : Name) : (Expr.ident name).Reads := by
  refine reads_of_openPostfix trivial (show 11 ≤ 12 by decide) ?_
  intro sc text more spells notCall
  refine comesOpen_of_primary (Comes.of_succ ?_)
  have notNumber : name.bytes = asBytes "Number" →
      ∀ others, more ≠ .punct .lparen :: others := by
    intro isNumber others isParen
    have isFalse : decide (name.bytes = asBytes "Number") = false := (notCall others isParen).2
    exact of_decide_eq_false isFalse isNumber
  obtain ⟨left, spellsLeft, isPrimary⟩ := parsePrimary_name spells notNumber sc
  exact (Comes.done spellsLeft).congr isPrimary

theorem reads_number (literal : Decimal) : (Expr.number literal).Reads := by
  refine reads_of_openPostfix trivial (show 11 ≤ 12 by decide) ?_
  intro sc text more spells _
  refine comesOpen_of_primary (Comes.of_succ ?_)
  obtain ⟨after, spellsAfter, isParsed⟩ := parseNumber_number spells.skip
  obtain ⟨behind, isFront, -, -⟩ := spells.front
  obtain ⟨first, rest, isLiteral, isFirst⟩ := literal.exists_cons
  obtain ⟨notParen, notSingle, notDouble⟩ := primary_of_decimal isFirst
  have isText : skipWs text = first :: (rest ++ behind) := by
    rw [isFront, ← List.cons_append, ← isLiteral]
    rfl
  have noParen : consume 40 (skipWs text) = none := by
    rw [isText]
    exact if_neg notParen
  have noQuote : ¬(check 39 (skipWs text) = true ∨ check 34 (skipWs text) = true) := by
    rw [isText]
    simp [check, notSingle, notDouble]
  have isNumber : ((skipWs text).head?.any fun byte => isAsciiDigit byte || byte = 46) =
      true := by
    rw [isText]
    simpa using isFirst
  have isPrimary : ∀ fuel, parsePrimary (fuel + 1) sc text =
      (Cache.parseF64 literal.bytes).map fun number => (sc.emitConst number, after) := by
    intro fuel
    rw [parsePrimary]
    dsimp only
    rw [noParen]
    dsimp only
    rw [if_neg noQuote, if_pos isNumber, isParsed, Option.map_map]
    rfl
  refine Comes.congr ?_ isPrimary
  change Comes ((Cache.parseF64 literal.bytes).map sc.emitConst) _ _
  cases Cache.parseF64 literal.bytes with
  | none => exact Comes.nothing
  | some number => exact Comes.done spellsAfter

/-- The closing parenthesis after an expression. -/
def closeParen (pair : StmtCompiler × Bytes) : Parsed :=
  (consume 41 (skipWs pair.2)).bind fun input => some (pair.1, input)

theorem consume_front
    {mark : Punct} {byte : UInt8} (isMark : mark.bytes = [byte]) {more : List Token}
    {text : Bytes} (spells : Spells (.punct mark :: more) text) :
    ∃ after, Spells more after ∧ consume byte (skipWs text) = some after := by
  obtain ⟨after, isFront, spellsAfter, -⟩ := spells.front
  refine ⟨after, spellsAfter, ?_⟩
  have isText : skipWs text = byte :: after := by
    rw [isFront]
    change mark.bytes ++ after = _
    rw [isMark]
    rfl
  rw [isText]
  exact if_pos rfl

theorem consume_stuck {byte : UInt8} (notEq : byte ≠ 61) {text : Bytes} (stuck : Stuck text) :
    consume byte (skipWs text) = none := by
  obtain ⟨rest, isFront, -⟩ := stuck
  rw [isFront]
  exact if_neg notEq.symm

/-- An expression is read up to its closing parenthesis. -/
theorem comes_closeParen
    {emitted : Option StmtCompiler} {more : List Token} {run : ℕ → Parsed}
    (comes : Comes emitted (.punct .rparen :: more) run) :
    Comes emitted more fun fuel => (run fuel).bind closeParen := by
  rw [← Option.bind_fun_some emitted]
  refine comes.bind (fun sc left spells => ?_) fun sc left stuck => ?_
  · obtain ⟨after, spellsAfter, isClose⟩ := consume_front rfl spells
    refine (Comes.done spellsAfter).congr fun fuel => ?_
    rw [closeParen, isClose]
    rfl
  · refine .of_none (Settles.of_forall fun fuel => ?_)
    rw [closeParen, consume_stuck (by decide) stuck]
    rfl

theorem reads_paren {inner : Expr} (derivable : inner.Derivable) (reads : inner.Reads) :
    (Expr.paren inner).Reads := by
  refine reads_of_openPostfix derivable (show 11 ≤ 12 by decide) ?_
  intro sc text more spells _
  have isTokens : (Expr.paren inner).tokens ++ more =
      .punct .lparen :: (inner.tokens ++ .punct .rparen :: more) := by
    rw [tokens, List.cons_append, List.cons_append, List.append_assoc]
    rfl
  rw [isTokens] at spells
  obtain ⟨after, spellsAfter, isParen⟩ := consume_front rfl spells
  have comes := reads.closed 1 (by decide) (by decide) derivable.rank_pos (by decide) sc after _
    spellsAfter (follow_cons.mpr (by decide))
  refine comesOpen_of_primary (((comes_closeParen comes).congr fun fuel => ?_).of_succ)
  rw [parsePrimary]
  dsimp only
  rw [isParen]
  rfl

/-! ## Member access and calls -/

/-- One turn of the loop of `parse_postfix` at a member access that is not called. -/
theorem parsePostfixRest_member
    {name : Name} {more : List Token} {left : Bytes}
    (spells : Spells (.punct .dot :: .ident name :: more) left)
    (notCall : ∀ others, more ≠ .punct .lparen :: others) (sc : StmtCompiler) :
    ∃ after, Spells more after ∧ ∀ fuel,
      parsePostfixRest (fuel + 1) sc left =
        parsePostfixRest fuel ((sc.emitStringConst name.bytes).emitOp .getProp) after := by
  obtain ⟨dotted, spellsName, isDot⟩ := consume_front rfl spells
  obtain ⟨after, isName, spellsAfter⟩ := parseIdentifier_name spellsName
  refine ⟨skipWs after, spellsAfter.skip, fun fuel => ?_⟩
  rw [parsePostfixRest]
  dsimp only
  rw [isDot]
  dsimp only
  rw [isName]
  dsimp only [Option.bind_eq_bind, Option.bind_some]
  rw [noParen_of_next spellsAfter notCall]

theorem reads_member {obj : Expr} {name : Name} (derivable : (Expr.member obj name).Derivable)
    (reads : obj.Reads) : (Expr.member obj name).Reads := by
  refine reads_of_openPostfix derivable (show 11 ≤ 11 by decide) ?_
  intro sc text more spells notCall
  have isTokens : (Expr.member obj name).tokens ++ more =
      obj.tokens ++ .punct .dot :: .ident name :: more := by
    rw [tokens, List.append_assoc]
    rfl
  rw [isTokens] at spells
  have comes := reads.openPostfix (derivable.1.trans (level_le_rank derivable.1)) sc text _ spells
    (by rintro others ⟨⟩)
  constructor
  · intro after isEmitted
    obtain ⟨before, isObj, rfl⟩ := Option.map_eq_some_iff.mp isEmitted
    obtain ⟨left, spellsLeft, goesOn⟩ := comes.1 before isObj
    obtain ⟨behind, spellsBehind, isTurn⟩ := parsePostfixRest_member spellsLeft
      (fun others isParen => by cases (notCall others isParen).1) before
    exact ⟨behind, spellsBehind, fun outcome others =>
      goesOn outcome ((others.congr isTurn).of_succ)⟩
  · intro isNone
    exact comes.2 (Option.map_eq_none_iff.mp isNone)

theorem check_of_consume {byte : UInt8} {text after : Bytes}
    (isSome : consume byte text = some after) : check byte text = true := by
  cases text with
  | nil => cases isSome
  | cons first rest =>
      by_cases same : first = byte
      · subst same
        exact decide_eq_true rfl
      · rw [consume, if_neg same] at isSome
        cases isSome

/-- No expression starts with a closing parenthesis. -/
theorem Derivable.exists_start {e : Expr} (derivable : e.Derivable) :
    ∃ token others, e.tokens = token :: others ∧ token ≠ .punct .rparen := by
  have ofFirst : ∀ {first : Expr} {rest : List Token},
      (∃ token others, first.tokens = token :: others ∧ token ≠ .punct .rparen) →
      ∃ token others, first.tokens ++ rest = token :: others ∧ token ≠ .punct .rparen := by
    rintro first rest ⟨token, others, isTokens, notClose⟩
    exact ⟨token, others ++ rest, by rw [isTokens]; rfl, notClose⟩
  induction e with
  | ident name => exact ⟨_, _, rfl, Token.noConfusion⟩
  | number literal => exact ⟨_, _, rfl, Token.noConfusion⟩
  | paren inner => exact ⟨_, _, rfl, by rintro ⟨⟩⟩
  | member obj name ih => exact ofFirst (ih derivable.2)
  | call func args ih =>
      rw [tokens, List.append_assoc]
      exact ofFirst (ih derivable.2.2.1)
  | method obj name args ih =>
      rw [tokens, List.append_assoc]
      exact ofFirst (ih derivable.2.1)
  | noArgs => cases derivable
  | unary op operand => refine ⟨_, _, rfl, ?_⟩; cases op <;> rintro ⟨⟩
  | binary op left right ih => exact ofFirst (ih derivable.2.2.1)
  | cond test yes no ih =>
      rw [tokens, List.append_assoc]
      exact ofFirst (ih derivable.2.2.2.1)
  | assign op target value ih => exact ofFirst (ih derivable.2.2.1)
  | comma left right ih => exact ofFirst (ih derivable.2.1)

theorem check_close_of_start {token : Token} {others : List Token} {text : Bytes}
    (spells : Spells (token :: others) text) (notClose : token ≠ .punct .rparen) :
    check 41 (skipWs text) = false := by
  obtain ⟨after, isFront, -, -⟩ := spells.front
  rw [isFront]
  cases token with
  | ident name =>
      obtain ⟨first, rest, isName, isStart, -⟩ := name.exists_cons
      change check 41 (name.bytes ++ after) = false
      rw [isName]
      refine decide_eq_false ?_
      rintro ⟨⟩
      cases isStart
  | number literal =>
      obtain ⟨first, rest, isLiteral, isFirst⟩ := literal.exists_cons
      change check 41 (literal.bytes ++ after) = false
      rw [isLiteral]
      refine decide_eq_false ?_
      rintro ⟨⟩
      revert isFirst
      decide
  | punct mark =>
      cases mark
      case rparen => exact absurd rfl notClose
      all_goals rfl

/-- The arguments after an opening parenthesis are read up to the closing one. -/
theorem parseArguments_settles
    {args : Expr} {more : List Token} {text : Bytes}
    (derivable : args.isNoArgs = true ∨ args.Derivable)
    (reads : args.Derivable → args.Reads)
    (spells : Spells (args.tokens ++ .punct .rparen :: more) text) (sc : StmtCompiler) :
    (∀ after, args.emit true sc = some after → ∃ left, Spells more left ∧
      Settles (fun fuel => parseArguments fuel sc text) (some (args.argc, after, left))) ∧
      (args.emit true sc = none → Settles (fun fuel => parseArguments fuel sc text) none) := by
  obtain none | some := derivable
  · cases args with
    | noArgs =>
        obtain ⟨after, spellsAfter, isClose⟩ := consume_front rfl spells
        have isNone : ∀ fuel, parseArguments (fuel + 1) sc text = some (0, sc, after) := by
          intro fuel
          rw [parseArguments, if_pos (check_of_consume isClose), isClose]
          rfl
        refine ⟨?_, fun isNone => (by cases isNone)⟩
        rintro _ ⟨⟩
        exact ⟨after, spellsAfter, (Settles.of_forall isNone).of_succ⟩
    | _ => cases none
  · obtain ⟨token, others, isTokens, notClose⟩ := some.exists_start
    have notEmpty : check 41 (skipWs text) = false := by
      rw [isTokens] at spells
      exact check_close_of_start spells notClose
    have isFrom : ∀ fuel, parseArguments (fuel + 1) sc text =
        argumentsFrom fuel sc (skipWs text) := by
      intro fuel
      rw [parseArguments, notEmpty]
      rfl
    have comes := (reads some).openArgs sc (skipWs text) _ spells.skip
      (follow_cons.mpr (by decide))
    constructor
    · intro after isEmitted
      obtain ⟨left, spellsLeft, goesOn⟩ := comes.1 after isEmitted
      obtain ⟨behind, spellsBehind, isClose⟩ := consume_front rfl spellsLeft
      refine ⟨behind, spellsBehind, ((goesOn _ ?_).congr isFrom).of_succ⟩
      refine (Settles.of_forall fun fuel => ?_).of_succ
      obtain ⟨rest, isFront, -, -⟩ := spellsLeft.front
      have notComma : consume 44 (skipWs left) = none := by
        rw [isFront]
        rfl
      rw [parseArgumentsRest, notComma, isClose]
      rfl
    · intro isNone
      exact ((comes.2 isNone).congr isFrom).of_succ

/-- No parser reads anything at a closing parenthesis or an `=`. -/
theorem settles_none {byte : UInt8} (isEnd : byte = 41 ∨ byte = 61) :
    ∀ rank, 1 ≤ rank → rank ≠ 2 → rank ≤ 11 → ∀ text rest, skipWs text = byte :: rest →
      ∀ sc, Settles (fun fuel => parserAt rank fuel sc text) none := by
  have ofNext : ∀ {run next : ℕ → Parsed}, Settles next none →
      (∀ fuel, next fuel = none → run (fuel + 1) = none) → Settles run none := by
    intro run next settles same
    exact Settles.of_succ (settles.mono fun fuel isNone => same fuel isNone)
  have ofChain : ∀ (chain : Chain) (text : Bytes) (sc : StmtCompiler),
      Settles (fun fuel => parserAt chain.operandRank fuel sc text) none →
      Settles (fun fuel => parserAt chain.rank fuel sc text) none := by
    intro chain text sc settles
    rw [← chain.loop_operand] at settles
    rw [← chain.loop_top]
    refine ofNext settles fun fuel isNone => ?_
    rw [chain.loop.top_succ, isNone]
    rfl
  have at₁₁ : ∀ text rest, skipWs text = byte :: rest →
      ∀ sc, Settles (fun fuel => parsePostfix fuel sc text) none := by
    intro text rest isFront sc
    have isPrimary : ∀ fuel, parsePrimary (fuel + 1) sc text = none := by
      intro fuel
      rw [parsePrimary, isFront]
      obtain rfl | rfl := isEnd <;> rfl
    have settles : Settles (fun fuel => parsePrimary fuel sc text) none :=
      Settles.of_succ (Settles.of_forall isPrimary)
    refine ofNext settles fun fuel isNone => ?_
    rw [parsePostfix, isNone]
    rfl
  have at₁₀ : ∀ text rest, skipWs text = byte :: rest →
      ∀ sc, Settles (fun fuel => parseFactor fuel sc text) none := by
    intro text rest isFront sc
    have skipped : skipWs (skipWs text) = byte :: rest := (skipWs_skipWs text).trans isFront
    refine ofNext (at₁₁ (skipWs text) rest skipped sc) fun fuel isNone => ?_
    rw [isFront] at isNone
    rw [parseFactor, isFront]
    obtain rfl | rfl := isEnd <;> exact isNone
  have at₉ := fun text rest isFront sc => ofChain .term text sc (at₁₀ text rest isFront sc)
  have at₈ := fun text rest isFront sc => ofChain .expr text sc (at₉ text rest isFront sc)
  have at₇ : ∀ text rest, skipWs text = byte :: rest →
      ∀ sc, Settles (fun fuel => parseAssignment fuel sc text) none := by
    intro text rest isFront sc
    have skipped : skipWs (skipWs text) = byte :: rest := (skipWs_skipWs text).trans isFront
    have notName : parseIdentifier (skipWs text) = none := by
      refine parseIdentifier_of_not_start skipped ?_
      obtain rfl | rfl := isEnd <;> rfl
    refine ofNext (at₈ (skipWs text) rest skipped sc) fun fuel isNone => ?_
    rw [parseAssignment, notName]
    exact isNone
  have at₆ := fun text rest isFront sc => ofChain .comparison text sc (at₇ text rest isFront sc)
  have at₅ := fun text rest isFront sc => ofChain .and text sc (at₆ text rest isFront sc)
  have at₄ := fun text rest isFront sc => ofChain .or text sc (at₅ text rest isFront sc)
  have at₃ : ∀ text rest, skipWs text = byte :: rest →
      ∀ sc, Settles (fun fuel => parseConditional fuel sc text) none := by
    intro text rest isFront sc
    refine ofNext (at₄ text rest isFront sc) fun fuel isNone => ?_
    have isNone : parseLogicalOr fuel sc text = none := isNone
    rw [parseConditional_eq, isNone]
    rfl
  have at₁ := fun text rest isFront sc => ofChain .comma text sc (at₃ text rest isFront sc)
  intro rank isPos notTwo low
  interval_cases rank
  · exact at₁
  · exact absurd rfl notTwo
  all_goals assumption

/-- A name that is called as `Number`. -/
theorem parsePrimary_number
    {name : Name} (isNumber : name.bytes = asBytes "Number") {more : List Token} {text : Bytes}
    (spells : Spells (.ident name :: .punct .lparen :: more) text) (sc : StmtCompiler) :
    ∃ inner, Spells more inner ∧ ∀ fuel, parsePrimary (fuel + 1) sc text =
      ((parseComma fuel sc inner).bind closeParen).map fun pair =>
        (pair.1.emitOp .toNumber, pair.2) := by
  obtain ⟨after, isParsed, spellsAfter⟩ := parseIdentifier_name spells.skip
  obtain ⟨inner, spellsInner, isParen⟩ := consume_front rfl spellsAfter
  obtain ⟨noParen, noQuote, noNumber⟩ := tests_of_name spells
  refine ⟨inner, spellsInner, fun fuel => ?_⟩
  have others : asBytes "Number" ≠ asBytes "true" ∧ asBytes "Number" ≠ asBytes "false" ∧
      asBytes "Number" ≠ asBytes "null" ∧ asBytes "Number" ≠ asBytes "undefined" :=
    ⟨by decide, by decide, by decide, by decide⟩
  rw [parsePrimary]
  dsimp only
  rw [noParen]
  dsimp only
  rw [if_neg noQuote, if_neg noNumber, isParsed]
  dsimp only
  rw [isNumber, if_neg others.1, if_neg others.2.1, if_neg others.2.2.1, if_neg others.2.2.2,
    if_pos rfl, isParen]
  cases isInner : parseComma fuel sc inner with
  | none =>
      dsimp only
      rw [isInner]
      rfl
  | some pair =>
      dsimp only [Option.bind_some, Option.bind_eq_bind]
      rw [isInner]
      dsimp only [Option.bind_some, closeParen]
      cases consume 41 (skipWs pair.2) <;> rfl

/-- One turn of the loop of `parse_postfix` at a call. -/
theorem parsePostfixRest_call
    {more : List Token} {left : Bytes} (spells : Spells (.punct .lparen :: more) left)
    (sc : StmtCompiler) :
    ∃ inner, Spells more inner ∧ ∀ fuel,
      parsePostfixRest (fuel + 1) sc left =
        (parseArguments fuel sc inner).bind fun parsed =>
          parsePostfixRest fuel (parsed.2.1.emitInst .call parsed.1) parsed.2.2 := by
  obtain ⟨inner, spellsInner, isParen⟩ := consume_front rfl spells
  obtain ⟨after, isFront, -, -⟩ := spells.front
  have noDot : consume 46 (skipWs left) = none := by
    rw [isFront]
    rfl
  have noBracket : consume 91 (skipWs left) = none := by
    rw [isFront]
    rfl
  refine ⟨inner, spellsInner, fun fuel => ?_⟩
  rw [parsePostfixRest]
  dsimp only
  rw [noDot]
  dsimp only
  rw [noBracket]
  dsimp only
  rw [isParen]
  rfl

/-- A callee is followed by arguments and the instruction of the call. -/
theorem comesOpen_arguments
    {called : Option StmtCompiler} {args : Expr} {middle more : List Token} {run : ℕ → Parsed}
    (op : OpCode) (prepare : StmtCompiler → StmtCompiler)
    (derivable : args.isNoArgs = true ∨ args.Derivable)
    (reads : args.Derivable → args.Reads) (comes : ComesOpen called middle parsePostfixRest run)
    (turn : ∀ sc left, Spells middle left →
      ∃ inner, Spells (args.tokens ++ .punct .rparen :: more) inner ∧ ∀ fuel,
        parsePostfixRest (fuel + 1) sc left =
          (parseArguments fuel (prepare sc) inner).bind fun parsed =>
            parsePostfixRest fuel (parsed.2.1.emitInst op parsed.1) parsed.2.2) :
    ComesOpen (called.bind fun sc =>
      (args.emit true (prepare sc)).map fun sc => sc.emitInst op args.argc) more
        parsePostfixRest run := by
  constructor
  · intro after isEmitted
    obtain ⟨callee, isCallee, isRest⟩ := Option.bind_eq_some_iff.mp isEmitted
    obtain ⟨passed, isPassed, rfl⟩ := Option.map_eq_some_iff.mp isRest
    obtain ⟨left, spellsLeft, goesOn⟩ := comes.1 callee isCallee
    obtain ⟨inner, spellsInner, isTurn⟩ := turn callee left spellsLeft
    obtain ⟨behind, spellsBehind, settles⟩ :=
      (parseArguments_settles derivable reads spellsInner (prepare callee)).1 passed isPassed
    refine ⟨behind, spellsBehind, fun outcome others => goesOn outcome ?_⟩
    exact ((settles.bind (fun fuel parsed =>
      parsePostfixRest fuel (parsed.2.1.emitInst op parsed.1) parsed.2.2) others).congr
        isTurn).of_succ
  · intro isNone
    cases isCallee : called with
    | none => exact comes.2 isCallee
    | some callee =>
        rw [isCallee] at isNone
        obtain ⟨left, spellsLeft, goesOn⟩ := comes.1 callee isCallee
        obtain ⟨inner, spellsInner, isTurn⟩ := turn callee left spellsLeft
        have settles := (parseArguments_settles derivable reads spellsInner (prepare callee)).2
          (Option.map_eq_none_iff.mp isNone)
        exact .of_none (goesOn none (((settles.bind_none fun fuel parsed =>
          parsePostfixRest fuel (parsed.2.1.emitInst op parsed.1) parsed.2.2).congr
            isTurn).of_succ))

/-- The calls of `Number` are an instruction. -/
theorem openPostfix_number {name : Name} {args : Expr}
    (isNumber : name.bytes = asBytes "Number")
    (derivable : args.isNoArgs = true ∨ args.Derivable)
    (reads : args.Derivable → args.Reads) : (Expr.call (.ident name) args).OpenPostfix := by
  intro sc text more spells _
  have isTokens : (Expr.call (.ident name) args).tokens ++ more =
      .ident name :: .punct .lparen :: (args.tokens ++ .punct .rparen :: more) := by
    simp [tokens]
  rw [isTokens] at spells
  obtain ⟨inner, spellsInner, isPrimary⟩ := parsePrimary_number isNumber spells sc
  have isName : (Expr.ident name).isNumberName = true := decide_eq_true isNumber
  refine comesOpen_of_primary (Comes.of_succ (Comes.congr ?_ isPrimary))
  rw [emit, if_pos isName]
  obtain isNone | isSome := derivable
  · rw [if_pos isNone]
    cases args with
    | noArgs =>
        obtain ⟨after, isFront, -, -⟩ := spellsInner.front
        have nothing := settles_none (.inl rfl) 1 (by decide) (by decide) (by decide) inner after
          isFront sc
        refine ⟨fun _ isSome => (by cases isSome), fun _ => .of_none ?_⟩
        exact (nothing.bind_none fun _ => closeParen).map _
    | _ => cases isNone
  · have notNone : ¬args.isNoArgs = true := by
      cases args with
      | noArgs => cases isSome
      | _ => exact Bool.false_ne_true
    rw [if_neg notNone]
    have comes := (reads isSome).closed 1 (by decide) (by decide) isSome.rank_pos (by decide) sc
      inner _ spellsInner (follow_cons.mpr (by decide))
    exact (comes_closeParen comes).map fun sc => sc.emitOp .toNumber

theorem reads_call {func args : Expr} (derivable : (Expr.call func args).Derivable)
    (readsFunc : func.Reads) (readsArgs : args.Derivable → args.Reads) :
    (Expr.call func args).Reads := by
  obtain ⟨high, notMember, derivableFunc, derivableArgs⟩ := derivable
  refine reads_of_openPostfix ⟨high, notMember, derivableFunc, derivableArgs⟩
    (show 11 ≤ 11 by decide) ?_
  by_cases isNumber : func.isNumberName = true
  · cases func with
    | ident name => exact openPostfix_number (of_decide_eq_true isNumber) derivableArgs readsArgs
    | _ => cases isNumber
  intro sc text more spells _
  have isTokens : (Expr.call func args).tokens ++ more =
      func.tokens ++ .punct .lparen :: (args.tokens ++ .punct .rparen :: more) := by
    simp [tokens]
  rw [isTokens] at spells
  have comes := readsFunc.openPostfix (high.trans (level_le_rank high)) sc text _ spells
    fun _ _ => ⟨notMember, Bool.not_eq_true _ ▸ isNumber⟩
  rw [emit, if_neg isNumber]
  exact comesOpen_arguments .call id derivableArgs readsArgs comes fun called left spellsLeft =>
    parsePostfixRest_call spellsLeft called

/-- One turn of the loop of `parse_postfix` at a method call. -/
theorem parsePostfixRest_method
    {name : Name} {more : List Token} {left : Bytes}
    (spells : Spells (.punct .dot :: .ident name :: .punct .lparen :: more) left)
    (sc : StmtCompiler) :
    ∃ inner, Spells more inner ∧ ∀ fuel,
      parsePostfixRest (fuel + 1) sc left =
        (parseArguments fuel (((sc.emitOp .dup).emitStringConst name.bytes).emitOp .getProp)
          inner).bind fun parsed =>
            parsePostfixRest fuel (parsed.2.1.emitInst .callMethod parsed.1) parsed.2.2 := by
  obtain ⟨dotted, spellsName, isDot⟩ := consume_front rfl spells
  obtain ⟨after, isName, spellsAfter⟩ := parseIdentifier_name spellsName
  obtain ⟨inner, spellsInner, isParen⟩ := consume_front rfl spellsAfter
  refine ⟨inner, spellsInner, fun fuel => ?_⟩
  rw [parsePostfixRest]
  dsimp only
  rw [isDot]
  dsimp only
  rw [isName]
  dsimp only [Option.bind_eq_bind, Option.bind_some]
  rw [isParen]

theorem reads_method {obj args : Expr} {name : Name}
    (derivable : (Expr.method obj name args).Derivable) (readsObj : obj.Reads)
    (readsArgs : args.Derivable → args.Reads) : (Expr.method obj name args).Reads := by
  obtain ⟨high, derivableObj, derivableArgs⟩ := derivable
  refine reads_of_openPostfix ⟨high, derivableObj, derivableArgs⟩ (show 11 ≤ 11 by decide) ?_
  intro sc text more spells _
  have isTokens : (Expr.method obj name args).tokens ++ more = obj.tokens ++
      .punct .dot :: .ident name :: .punct .lparen :: (args.tokens ++ .punct .rparen :: more) := by
    simp [tokens]
  rw [isTokens] at spells
  have comes := readsObj.openPostfix (high.trans (level_le_rank high)) sc text _ spells
    (by rintro others ⟨⟩)
  exact comesOpen_arguments .callMethod
    (fun sc => ((sc.emitOp .dup).emitStringConst name.bytes).emitOp .getProp) derivableArgs
    readsArgs comes fun called left spellsLeft => parsePostfixRest_method spellsLeft called

end Expr

end Script
end MuonJs
