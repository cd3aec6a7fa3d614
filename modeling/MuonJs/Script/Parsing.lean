import MuonJs.Script.Levels

/-!
# Parsing expressions

The compiler emits for a text the code of the tree that the text derives from, if
it is one that the compiler groups as the grammar does; where there is no code, it
does not accept the text.
-/

namespace MuonJs
namespace Script

open Cache (Bytes asBytes isAsciiDigit)
open Descent (Loop Turn Settles Fails)

/-! ## Outcomes -/

/-- A parse emits code and leaves what spells the tokens that follow; where there
is no code it fails. -/
def Comes (emitted : Option StmtCompiler) (more : List Token) (run : ℕ → Parsed) : Prop :=
  (∀ sc, emitted = some sc → ∃ left, Spells more left ∧ Settles run (some (sc, left))) ∧
    (emitted = none → Fails Stuck run)

/-- The same, with a loop that may go on. -/
def ComesOpen (emitted : Option StmtCompiler) (more : List Token)
    (rest : ℕ → StmtCompiler → Bytes → Parsed) (run : ℕ → Parsed) : Prop :=
  (∀ sc, emitted = some sc → ∃ left, Spells more left ∧
    ∀ outcome, Settles (fun fuel => rest fuel sc left) outcome → Settles run outcome) ∧
    (emitted = none → Fails Stuck run)

theorem Comes.of_succ {emitted : Option StmtCompiler} {more : List Token} {run : ℕ → Parsed}
    (comes : Comes emitted more fun fuel => run (fuel + 1)) : Comes emitted more run := by
  refine ⟨fun sc isEmitted => ?_, fun isNone => (comes.2 isNone).of_succ⟩
  obtain ⟨left, spells, settles⟩ := comes.1 sc isEmitted
  exact ⟨left, spells, settles.of_succ⟩

theorem Comes.congr {emitted : Option StmtCompiler} {more : List Token} {run run' : ℕ → Parsed}
    (comes : Comes emitted more run) (same : ∀ fuel, run' fuel = run fuel) :
    Comes emitted more run' := by
  refine ⟨fun sc isEmitted => ?_, fun isNone => (comes.2 isNone).congr same⟩
  obtain ⟨left, spells, settles⟩ := comes.1 sc isEmitted
  exact ⟨left, spells, settles.congr same⟩

/-- A parse that takes nothing more. -/
theorem Comes.done {sc : StmtCompiler} {more : List Token} {left : Bytes}
    (spells : Spells more left) : Comes (some sc) more fun _ => some (sc, left) := by
  refine ⟨?_, fun isNone => (by cases isNone)⟩
  rintro _ ⟨⟩
  exact ⟨left, spells, Settles.of_forall fun _ => rfl⟩

/-- A parse that gives nothing where there is no code. -/
theorem Comes.nothing {more : List Token} : Comes none more fun _ => none :=
  ⟨fun _ isSome => (by cases isSome), fun _ => .of_none (Settles.of_forall fun _ => rfl)⟩

/-- A parse is followed by another. -/
theorem Comes.bind
    {emitted : Option StmtCompiler} {then_ : StmtCompiler → Option StmtCompiler}
    {middle more : List Token} {run : ℕ → Parsed} {next : ℕ → StmtCompiler × Bytes → Parsed}
    (first : Comes emitted middle run)
    (second : ∀ sc left, Spells middle left →
      Comes (then_ sc) more fun fuel => next fuel (sc, left))
    (onStuck : ∀ sc left, Stuck left → Fails Stuck fun fuel => next fuel (sc, left)) :
    Comes (emitted.bind then_) more fun fuel => (run fuel).bind (next fuel) := by
  cases isEmitted : emitted with
  | none =>
      refine ⟨fun sc isSome => (by cases isSome), fun _ => ?_⟩
      exact (first.2 isEmitted).bind next onStuck
  | some sc =>
      obtain ⟨left, spells, settles⟩ := first.1 sc isEmitted
      have others := second sc left spells
      refine ⟨fun after isAfter => ?_, fun isNone => ?_⟩
      · obtain ⟨leftAfter, spellsAfter, settlesAfter⟩ := others.1 after isAfter
        exact ⟨leftAfter, spellsAfter, settles.bind next settlesAfter⟩
      · obtain ⟨outcome, settlesAfter, stuck⟩ := others.2 isNone
        exact ⟨outcome, settles.bind next settlesAfter, stuck⟩

/-- A parse is followed by an instruction. -/
theorem Comes.map
    {emitted : Option StmtCompiler} {more : List Token} {run : ℕ → Parsed}
    (comes : Comes emitted more run) (emit : StmtCompiler → StmtCompiler) :
    Comes (emitted.map emit) more fun fuel =>
      (run fuel).map fun pair => (emit pair.1, pair.2) := by
  have isBind : emitted.map emit = emitted.bind fun sc => some (emit sc) :=
    Option.map_eq_bind
  have both : Comes (emitted.bind fun sc => some (emit sc)) more fun fuel =>
      (run fuel).bind fun pair => some (emit pair.1, pair.2) :=
    comes.bind (fun sc left spells => Comes.done spells) fun sc left stuck =>
      .of_stuck (Settles.of_forall fun _ => rfl) stuck
  rw [isBind]
  exact both.congr fun fuel => Option.map_eq_bind

/-! ## Ranks -/

namespace Expr

/-- The rank of the parser that an expression needs. -/
def rank (e : Expr) : ℕ := if e.level = 2 then 7 else if e.level = 7 then 6 else e.level

/-- The parser of a rank reads the expression. -/
def Closed (e : Expr) (rank : ℕ) : Prop :=
  ∀ sc text more, Spells (e.tokens ++ more) text → Follow rank more →
    Comes (e.emit false sc) more fun fuel => parserAt rank fuel sc text

/-- The parser of a level reads the expression and may go on. -/
def Open (e : Expr) (chain : Chain) : Prop :=
  ∀ sc text more, Spells (e.tokens ++ more) text → Follow chain.operandRank more →
    ComesOpen (e.emit false sc) more chain.loop.rest fun fuel => chain.loop.top fuel sc text

/-- The parser of postfix expressions reads the expression and may go on, unless
the next call takes it for something else. -/
def OpenPostfix (e : Expr) : Prop :=
  ∀ sc text more, Spells (e.tokens ++ more) text →
    (∀ others, more = .punct .lparen :: others → e.isMember = false ∧ e.isNumberName = false) →
    ComesOpen (e.emit false sc) more parsePostfixRest fun fuel => parsePostfix fuel sc text

theorem open_of_closed {e : Expr} {chain : Chain} (closed : e.Closed chain.operandRank) :
    e.Open chain := by
  intro sc text more spells follow
  have comes := closed sc text more spells follow
  rw [← chain.loop_operand] at comes
  constructor
  · intro after isEmitted
    obtain ⟨left, spellsLeft, settles⟩ := comes.1 after isEmitted
    exact ⟨left, spellsLeft, fun outcome others => chain.loop.top_settles settles others⟩
  · intro isNone
    exact chain.loop.top_fails (fun _ stuck => chain.turn_stuck stuck) (comes.2 isNone)

theorem closed_of_open {e : Expr} {chain : Chain} (isOpen : e.Open chain) :
    e.Closed chain.rank := by
  intro sc text more spells follow
  have comes := isOpen sc text more spells (follow.mono chain.rank_lt.le)
  rw [← chain.loop_top]
  refine ⟨fun after isEmitted => ?_, comes.2⟩
  obtain ⟨left, spellsLeft, goesOn⟩ := comes.1 after isEmitted
  exact ⟨skipWs left, spellsLeft.skip,
    goesOn _ (chain.loop.rest_stop (chain.turn_follow spellsLeft follow))⟩

end Expr

/-! ## First tokens -/

/-- A token with which a primary expression starts. -/
def Token.IsPrimary : Token → Prop
  | .punct mark => mark = .lparen
  | _ => True

theorem not_identStart_of_digit {byte : UInt8} (isDigit : isAsciiDigit byte = true) :
    isIdentStart byte = false := by
  simp [isAsciiDigit, isIdentStart, UInt8.le_iff_toNat_le, ← UInt8.toNat_inj] at *
  omega

/-- No primary expression starts with a unary operator. -/
theorem Token.IsPrimary.not_unary
    {token : Token} (isPrimary : token.IsPrimary) (after : Bytes) :
    consume 43 (token.bytes ++ after) = none ∧
      matchOp [([45], .neg), ([33], .not), ([126], .bitNot)] (token.bytes ++ after) = none := by
  have ofFirst : ∀ first rest, token.bytes = first :: rest →
      first ≠ 43 ∧ first ≠ 45 ∧ first ≠ 33 ∧ first ≠ 126 →
      consume 43 (token.bytes ++ after) = none ∧
        matchOp [([45], .neg), ([33], .not), ([126], .bitNot)] (token.bytes ++ after) =
          none := by
    rintro first rest isToken ⟨notPlus, notMinus, notNot, notBitNot⟩
    rw [isToken]
    constructor
    · exact if_neg notPlus
    · simp [matchOp, notMinus.symm, notNot.symm, notBitNot.symm]
  cases token with
  | ident name =>
      obtain ⟨first, rest, isName, isStart, -⟩ := name.exists_cons
      refine ofFirst first rest isName ⟨?_, ?_, ?_, ?_⟩ <;> rintro rfl <;> cases isStart
  | number literal =>
      obtain ⟨first, rest, isLiteral, isDigit | rfl⟩ := literal.exists_cons
      · refine ofFirst first rest isLiteral ⟨?_, ?_, ?_, ?_⟩ <;> rintro rfl <;> cases isDigit
      · exact ofFirst 46 rest isLiteral (by decide)
  | punct mark =>
      have isParen : mark = .lparen := isPrimary
      subst isParen
      exact ofFirst 40 [] rfl (by decide)

/-- Only a name starts an identifier. -/
theorem parseIdentifier_other
    {tokens : List Token} {text : Bytes} (spells : Spells tokens text)
    (notName : ∀ name others, tokens ≠ .ident name :: others) :
    parseIdentifier text = none := by
  cases tokens with
  | nil =>
      rw [parseIdentifier, spells.skipWs_nil]
  | cons token others =>
      obtain ⟨after, isFront, -, -⟩ := spells.front
      cases token with
      | ident name => exact absurd rfl (notName name others)
      | number literal =>
          obtain ⟨first, rest, isLiteral, isDigit⟩ := literal.exists_cons
          have isText : skipWs text = first :: (rest ++ after) := by
            rw [isFront]
            change literal.bytes ++ after = _
            rw [isLiteral]
            rfl
          refine parseIdentifier_of_not_start isText ?_
          obtain isDigit | rfl := isDigit
          · exact not_identStart_of_digit isDigit
          · rfl
      | punct mark =>
          cases mark <;> exact parseIdentifier_of_not_start isFront rfl

/-- The assignment operators. -/
def Punct.isAssign : Punct → Bool
  | .assign | .addAssign | .subAssign => true
  | _ => false

/-- No assignment to a name stands in front. -/
def NotAssigned (tokens : List Token) : Prop :=
  ∀ name mark others, tokens = .ident name :: .punct mark :: others → mark.isAssign = false

/-- No assignment operator stands in front. -/
def NotAssign (tokens : List Token) : Prop :=
  ∀ mark others, tokens = .punct mark :: others → mark.isAssign = false

/-- The tests for an assignment fail at other tokens. -/
theorem NotAssign.tests
    {tokens : List Token} {text : Bytes} (notAssign : NotAssign tokens)
    (spells : Spells tokens text) :
    consumeSeq [43, 61] (skipWs text) = none ∧ consumeSeq [45, 61] (skipWs text) = none ∧
      ∀ after, consume 61 (skipWs text) = some after → check 61 after = true := by
  have ofFirst : ∀ first rest, skipWs text = first :: rest →
      first ≠ 43 ∧ first ≠ 45 ∧ first ≠ 61 →
      consumeSeq [43, 61] (skipWs text) = none ∧ consumeSeq [45, 61] (skipWs text) = none ∧
        ∀ after, consume 61 (skipWs text) = some after → check 61 after = true := by
    rintro first rest isText ⟨notPlus, notMinus, notEq⟩
    rw [isText, consumeSeq_cons, if_neg notPlus.symm, consumeSeq_cons, if_neg notMinus.symm,
      consume, if_neg notEq]
    exact ⟨rfl, rfl, fun after isSome => (by cases isSome)⟩
  cases tokens with
  | nil =>
      rw [spells.skipWs_nil]
      exact ⟨rfl, rfl, fun after isSome => (by cases isSome)⟩
  | cons token others =>
      obtain ⟨after, isFront, -, isEnd⟩ := spells.front
      cases token with
      | ident name =>
          obtain ⟨first, rest, isName, isStart, -⟩ := name.exists_cons
          refine ofFirst first (rest ++ after) ?_ ⟨?_, ?_, ?_⟩
          · rw [isFront, ← List.cons_append, ← isName]
            rfl
          all_goals
            rintro rfl
            cases isStart
      | number literal =>
          obtain ⟨first, rest, isLiteral, isDigit⟩ := literal.exists_cons
          refine ofFirst first (rest ++ after) ?_ ?_
          · rw [isFront, ← List.cons_append, ← isLiteral]
            rfl
          · obtain isDigit | rfl := isDigit
            · refine ⟨?_, ?_, ?_⟩ <;> rintro rfl <;> cases isDigit
            · decide
      | punct mark =>
          have notLonger : ∀ byte ∈ mark.extensions, after.head? ≠ some byte :=
            fun byte isLonger isNext => isEnd byte isNext isLonger
          have isText : skipWs text = mark.bytes ++ after := isFront
          have notMark := notAssign mark others rfl
          cases mark
          case add | sub =>
            rw [isText]
            have notEq : after.head? ≠ some 61 := notLonger 61 (by decide)
            cases after with
            | nil => exact ⟨rfl, rfl, fun after isSome => (by cases isSome)⟩
            | cons byte after =>
                have notByte : (61 : UInt8) ≠ byte := fun same => notEq (same ▸ rfl)
                simp [Punct.bytes, consume, notByte]
          case eq | strictEq =>
            rw [isText]
            refine ⟨rfl, rfl, fun left isLeft => ?_⟩
            cases isLeft
            rfl
          case assign | addAssign | subAssign => cases notMark
          all_goals exact ofFirst _ _ isText (by decide)

/-! ## From rank to rank -/

namespace Expr

/-- The parser of assignments goes on with the parser of additions, unless an
assignment to a name stands in front. -/
theorem parseAssignment_settles
    {tokens : List Token} {text : Bytes} (spells : Spells tokens text)
    (notAssigned : NotAssigned tokens) (fuel : ℕ) (sc : StmtCompiler) :
    parseAssignment (fuel + 1) sc text = parseExpr fuel sc (skipWs text) := by
  rw [parseAssignment]
  dsimp only
  by_cases isName : ∃ name others, tokens = .ident name :: others
  · obtain ⟨name, others, rfl⟩ := isName
    obtain ⟨after, isParsed, spellsAfter⟩ := parseIdentifier_name spells.skip
    have notAssign : NotAssign others := by
      rintro mark rest rfl
      exact notAssigned name mark rest rfl
    obtain ⟨notAdd, notSub, isEq⟩ := notAssign.tests spellsAfter
    rw [isParsed]
    dsimp only
    rw [notAdd]
    dsimp only
    rw [notSub]
    dsimp only
    cases consumed : consume 61 (skipWs after) with
    | none => rfl
    | some left =>
        dsimp only
        rw [if_pos (isEq left consumed)]
  · rw [parseIdentifier_other spells.skip fun name others same => isName ⟨name, others, same⟩]

theorem closed_assignment {e : Expr} (closed : e.Closed 8)
    (notAssigned : ∀ more, Follow 7 more → NotAssigned (e.tokens ++ more)) : e.Closed 7 := by
  intro sc text more spells follow
  have comes := closed sc (skipWs text) more spells.skip (follow.mono (by decide))
  exact (comes.congr fun fuel =>
    parseAssignment_settles spells (notAssigned more follow) fuel sc).of_succ

/-- The end of `parse_conditional`, after the test. -/
def conditionalRest (fuel : ℕ) (test : StmtCompiler × Bytes) : Parsed :=
  match consume 63 (skipWs test.2) with
  | none => some (test.1, skipWs test.2)
  | some input =>
      (parseConditional fuel (test.1.emitOp .jumpIfFalse) input).bind fun yes =>
        (consume 58 (skipWs yes.2)).bind fun input =>
          (parseConditional fuel
            ((yes.1.emitOp .jump).patchJump test.1.func.code.length) input).map fun no =>
              (no.1.patchJump yes.1.func.code.length, no.2)

theorem parseConditional_eq (fuel : ℕ) (sc : StmtCompiler) (input : Bytes) :
    parseConditional (fuel + 1) sc input =
      (parseLogicalOr fuel sc input).bind (conditionalRest fuel) := by
  rw [parseConditional]
  cases parseLogicalOr fuel sc input with
  | none => rfl
  | some test =>
      obtain ⟨sc, input⟩ := test
      change _ = conditionalRest fuel (sc, input)
      unfold conditionalRest
      dsimp only [Option.bind_eq_bind, Option.bind_some]
      cases consume 63 (skipWs input) with
      | none => rfl
      | some input =>
          dsimp only
          cases parseConditional fuel (sc.emitOp .jumpIfFalse) input with
          | none => rfl
          | some yes =>
              dsimp only [Option.bind_some]
              cases consume 58 (skipWs yes.2) with
              | none => rfl
              | some input =>
                  dsimp only [Option.bind_some]
                  cases parseConditional fuel _ input <;> rfl

theorem conditionalRest_follow
    {more : List Token} {left : Bytes} (spells : Spells more left) (follow : Follow 3 more)
    (fuel : ℕ) (sc : StmtCompiler) :
    conditionalRest fuel (sc, left) = some (sc, skipWs left) := by
  have notQuestion : consume 63 (skipWs left) = none := by
    obtain rfl | ⟨mark, rest, rfl, low⟩ := follow.cases (by decide)
    · rw [spells.skipWs_nil]
      rfl
    · obtain ⟨after, isFront, -, -⟩ := spells.front
      rw [isFront]
      cases mark <;> first | rfl | exact absurd low (by decide)
  rw [conditionalRest, notQuestion]

theorem conditionalRest_stuck (sc : StmtCompiler) {left : Bytes} (stuck : Stuck left) :
    Fails Stuck fun fuel => conditionalRest fuel (sc, left) := by
  have stops : ∀ fuel, conditionalRest fuel (sc, left) = some (sc, skipWs left) := by
    intro fuel
    obtain ⟨rest, isFront, -⟩ := stuck
    rw [conditionalRest, isFront]
    rfl
  exact .of_stuck (Settles.of_forall stops) stuck.skip

theorem closed_conditional {e : Expr} (closed : e.Closed 4) : e.Closed 3 := by
  intro sc text more spells follow
  have comes := closed sc text more spells (follow.mono (by decide))
  rw [← Option.bind_fun_some (e.emit false sc)]
  refine ((comes.bind (fun after left spellsLeft => ?_) fun after left stuck =>
    conditionalRest_stuck after stuck).congr fun fuel =>
      parseConditional_eq fuel sc text).of_succ
  exact (Comes.done spellsLeft.skip).congr fun fuel =>
    conditionalRest_follow spellsLeft follow fuel after

/-- The parser of factors goes on with the parser of postfix expressions at a
primary expression. -/
theorem closed_factor {e : Expr} (closed : e.Closed 11)
    (isPrimary : ∃ token others, e.tokens = token :: others ∧ token.IsPrimary) :
    e.Closed 10 := by
  intro sc text more spells follow
  have comes := closed sc (skipWs text) more spells.skip (follow.mono (by decide))
  refine (comes.congr fun fuel => ?_).of_succ
  obtain ⟨token, others, isTokens, primary⟩ := isPrimary
  rw [isTokens] at spells
  obtain ⟨after, isFront, -, -⟩ := spells.front
  obtain ⟨notPlus, notOp⟩ := primary.not_unary after
  change parseFactor (fuel + 1) sc text = parsePostfix fuel sc (skipWs text)
  rw [parseFactor]
  dsimp only
  rw [isFront, notPlus]
  dsimp only
  rw [notOp]

/-- At the end of a postfix expression. -/
theorem parsePostfixRest_done {input : Bytes}
    (notDot : consume 46 (skipWs input) = none) (notBracket : consume 91 (skipWs input) = none)
    (notParen : consume 40 (skipWs input) = none) (sc : StmtCompiler) :
    Settles (fun fuel => parsePostfixRest fuel sc input) (some (sc, skipWs input)) := by
  refine (Settles.of_forall fun fuel => ?_).of_succ
  rw [parsePostfixRest]
  dsimp only
  rw [notDot]
  dsimp only
  rw [notBracket]
  dsimp only
  rw [notParen]

theorem parsePostfixRest_stuck (sc : StmtCompiler) {left : Bytes} (stuck : Stuck left) :
    Fails Stuck fun fuel => parsePostfixRest fuel sc left := by
  obtain ⟨rest, isFront, -⟩ := id stuck
  refine .of_stuck (parsePostfixRest_done ?_ ?_ ?_ sc) stuck.skip <;> rw [isFront] <;> rfl

theorem closed_postfix {e : Expr} (isOpen : e.OpenPostfix) : e.Closed 11 := by
  intro sc text more spells follow
  have comes := isOpen sc text more spells (by
    rintro others rfl
    exact absurd (follow_cons.mp follow) (by decide))
  refine ⟨fun after isEmitted => ?_, comes.2⟩
  obtain ⟨left, spellsLeft, goesOn⟩ := comes.1 after isEmitted
  refine ⟨skipWs left, spellsLeft.skip, goesOn _ ?_⟩
  obtain rfl | ⟨mark, rest, rfl, low⟩ := follow.cases (by decide)
  · refine parsePostfixRest_done ?_ ?_ ?_ after <;> rw [spellsLeft.skipWs_nil] <;> rfl
  · obtain ⟨behind, isFront, -, -⟩ := spellsLeft.front
    refine parsePostfixRest_done ?_ ?_ ?_ after <;> rw [isFront] <;> cases mark <;>
      first | rfl | exact absurd low (by decide)

/-- A call or a member access starts like a primary expression. -/
theorem exists_primary {e : Expr} (derivable : e.Derivable) (high : 11 ≤ e.level) :
    ∃ token others, e.tokens = token :: others ∧ token.IsPrimary := by
  induction e with
  | ident name => exact ⟨_, _, rfl, trivial⟩
  | number literal => exact ⟨_, _, rfl, trivial⟩
  | paren inner => exact ⟨_, _, rfl, rfl⟩
  | member obj name ih =>
      obtain ⟨token, others, isTokens, isPrimary⟩ := ih derivable.2 derivable.1
      exact ⟨token, _, by rw [tokens, isTokens]; rfl, isPrimary⟩
  | call func args ih =>
      obtain ⟨token, others, isTokens, isPrimary⟩ := ih derivable.2.2.1 derivable.1
      exact ⟨token, _, by rw [tokens, isTokens]; rfl, isPrimary⟩
  | method obj name args ih =>
      obtain ⟨token, others, isTokens, isPrimary⟩ := ih derivable.2.1 derivable.1
      exact ⟨token, _, by rw [tokens, isTokens]; rfl, isPrimary⟩
  | noArgs => exact absurd high (by decide)
  | unary => exact absurd (show 11 ≤ 10 from high) (by decide)
  | binary op =>
      have high : 11 ≤ op.level := high
      cases op <;> exact absurd high (by decide)
  | cond => exact absurd (show 11 ≤ 3 from high) (by decide)
  | assign => exact absurd (show 11 ≤ 2 from high) (by decide)
  | comma => exact absurd (show 11 ≤ 1 from high) (by decide)

theorem notAssign_cons {mark : Punct} (notAssign : mark.isAssign = false)
    (others : List Token) : NotAssign (.punct mark :: others) := by
  rintro _ _ ⟨⟩
  exact notAssign

theorem notAssigned_of_punct (mark : Punct) (others : List Token) :
    NotAssigned (.punct mark :: others) := by
  rintro _ _ _ ⟨⟩

/-- An expression that is no assignment does not start with one to a name. -/
theorem notAssigned_tokens {e : Expr} (derivable : e.Derivable) (high : 8 ≤ e.level) :
    ∀ more, NotAssign more → NotAssigned (e.tokens ++ more) := by
  have ofPostfix : ∀ {obj : Expr}, 11 ≤ obj.level → 8 ≤ obj.level := fun high => by omega
  induction e with
  | ident name =>
      rintro more notAssign other mark others ⟨⟩
      exact notAssign mark others rfl
  | number literal => rintro more - other mark others ⟨⟩
  | paren inner => exact fun more _ => notAssigned_of_punct _ _
  | member obj name ih =>
      intro more _
      rw [tokens, List.append_assoc]
      exact ih derivable.2 (ofPostfix derivable.1) _ (notAssign_cons rfl _)
  | call func args ih =>
      intro more _
      rw [tokens, List.append_assoc, List.append_assoc]
      exact ih derivable.2.2.1 (ofPostfix derivable.1) _ (notAssign_cons rfl _)
  | method obj name args ih =>
      intro more _
      rw [tokens, List.append_assoc, List.append_assoc]
      exact ih derivable.2.1 (ofPostfix derivable.1) _ (notAssign_cons rfl _)
  | noArgs => exact absurd high (by decide)
  | unary => exact fun more _ => notAssigned_of_punct _ _
  | binary op left right ih =>
      intro more _
      have high : 8 ≤ op.level := high
      rw [tokens, List.append_assoc]
      refine ih derivable.2.2.1 (high.trans derivable.1) _ (notAssign_cons ?_ _)
      cases op <;> rfl
  | cond => exact absurd (show 8 ≤ 3 from high) (by decide)
  | assign => exact absurd (show 8 ≤ 2 from high) (by decide)
  | comma => exact absurd (show 8 ≤ 1 from high) (by decide)

theorem notAssign_of_follow {more : List Token} (follow : Follow 7 more) : NotAssign more := by
  rintro mark others rfl
  have low : mark.continues < 7 := follow_cons.mp follow
  cases mark <;> first | rfl | exact absurd low (by decide)

theorem le_level {e : Expr} {bound : ℕ} (isBound : bound = 8 ∨ bound = 11)
    (high : bound ≤ e.rank) : bound ≤ e.level := by
  unfold rank at high
  split at high
  · omega
  · split at high <;> omega

theorem level_le_rank {e : Expr} (high : 11 ≤ e.level) : e.level ≤ e.rank := by
  unfold rank
  split_ifs <;> omega

theorem rank_ne_two (e : Expr) : e.rank ≠ 2 := by
  unfold rank
  split
  · decide
  · split
    · decide
    · assumption

/-! ## All ranks -/

/-- The arguments of a call, of which there is one at least. -/
def argumentsFrom (fuel : ℕ) (sc : StmtCompiler) (input : Bytes) :
    Option (UInt32 × StmtCompiler × Bytes) :=
  (parseConditional fuel sc input).bind fun pair => parseArgumentsRest fuel 1 pair.1 pair.2

/-- The arguments are read and the loop over them may go on. -/
def OpenArgs (e : Expr) : Prop :=
  ∀ sc text more, Spells (e.tokens ++ more) text → Follow 2 more →
    (∀ after, e.emit true sc = some after → ∃ left, Spells more left ∧
      ∀ outcome, Settles (fun fuel => parseArgumentsRest fuel e.argc after left) outcome →
        Settles (fun fuel => argumentsFrom fuel sc text) outcome) ∧
      (e.emit true sc = none → Settles (fun fuel => argumentsFrom fuel sc text) none)

theorem emit_true {e : Expr} (notComma : e.level ≠ 1) (sc : StmtCompiler) :
    e.emit true sc = e.emit false sc := by
  cases e with
  | noArgs => exact absurd rfl notComma
  | comma => exact absurd rfl notComma
  | assign op target => cases target <;> rfl
  | _ => rfl

theorem argc_eq_one {e : Expr} (notComma : e.level ≠ 1) : e.argc = 1 := by
  cases e with
  | noArgs => exact absurd rfl notComma
  | comma => exact absurd rfl notComma
  | _ => rfl

theorem parseArgumentsRest_stuck (argc : UInt32) (sc : StmtCompiler) {left : Bytes}
    (stuck : Stuck left) : Settles (fun fuel => parseArgumentsRest fuel argc sc left) none := by
  obtain ⟨rest, isFront, -⟩ := stuck
  refine (Settles.of_forall fun fuel => ?_).of_succ
  rw [parseArgumentsRest, isFront]
  rfl

/-- One argument is read by the parser of conditional expressions. -/
theorem openArgs_of_closed {e : Expr} (notComma : e.level ≠ 1) (closed : e.Closed 3) :
    e.OpenArgs := by
  intro sc text more spells follow
  have comes := closed sc text more spells (follow.mono (by decide))
  rw [emit_true notComma, argc_eq_one notComma]
  constructor
  · intro after isEmitted
    obtain ⟨left, spellsLeft, settles⟩ := comes.1 after isEmitted
    exact ⟨left, spellsLeft, fun outcome others =>
      settles.bind (fun fuel (pair : StmtCompiler × Bytes) =>
        parseArgumentsRest fuel 1 pair.1 pair.2) others⟩
  · intro isNone
    exact (comes.2 isNone).bind_none
      (fun fuel (pair : StmtCompiler × Bytes) => parseArgumentsRest fuel 1 pair.1 pair.2)
      fun after left stuck => parseArgumentsRest_stuck 1 after stuck

theorem Derivable.level_pos {e : Expr} (derivable : e.Derivable) : 1 ≤ e.level := by
  cases e with
  | binary op => cases op <;> exact Nat.succ_pos _
  | noArgs => cases derivable
  | _ => exact Nat.succ_pos _

theorem Derivable.rank_pos {e : Expr} (derivable : e.Derivable) : 1 ≤ e.rank := by
  have isPos := derivable.level_pos
  unfold rank
  split_ifs <;> omega

/-- All parsers that an expression has the rank for read it. -/
structure Reads (e : Expr) : Prop where
  closed : ∀ rank, 1 ≤ rank → rank ≠ 2 → rank ≤ e.rank → rank ≤ 11 → e.Closed rank
  opened : ∀ chain : Chain, chain.rank ≤ e.rank → e.Open chain
  openPostfix : 11 ≤ e.rank → e.OpenPostfix
  openArgs : e.OpenArgs

/-- What the parser of its own rank reads, all parsers below it read. -/
theorem reads_of_rank {e : Expr} (derivable : e.Derivable)
    (openPostfix : 11 ≤ e.rank → e.OpenPostfix) (closed : e.rank ≤ 10 → e.Closed e.rank)
    (opened : ∀ chain : Chain, chain.rank = e.rank → e.Open chain)
    (openArgs : e.level = 1 → e.OpenArgs) : e.Reads := by
  have closed₁₁ : 11 ≤ e.rank → e.Closed 11 := fun high => closed_postfix (openPostfix high)
  have ofNext : ∀ rank, rank ≤ 10 → (rank + 1 ≤ e.rank → e.Closed rank) →
      rank ≤ e.rank → e.Closed rank := by
    intro rank low next high
    by_cases same : e.rank = rank
    · rw [← same]
      exact closed (same ▸ low)
    · exact next (by omega)
  have ofChain : ∀ chain : Chain, e.Closed chain.operandRank → e.Closed chain.rank :=
    fun chain closed => closed_of_open (open_of_closed closed)
  have closed₁₀ := ofNext 10 (by decide) fun high =>
    closed_factor (closed₁₁ high) (exists_primary derivable (le_level (.inr rfl) high))
  have closed₉ := ofNext 9 (by decide) fun high => ofChain .term (closed₁₀ high)
  have closed₈ := ofNext 8 (by decide) fun high => ofChain .expr (closed₉ high)
  have closed₇ := ofNext 7 (by decide) fun high => closed_assignment (closed₈ high)
    fun more follow => notAssigned_tokens derivable (le_level (.inl rfl) high) more
      (notAssign_of_follow follow)
  have closed₆ := ofNext 6 (by decide) fun high => ofChain .comparison (closed₇ high)
  have closed₅ := ofNext 5 (by decide) fun high => ofChain .and (closed₆ high)
  have closed₄ := ofNext 4 (by decide) fun high => ofChain .or (closed₅ high)
  have closed₃ := ofNext 3 (by decide) fun high => closed_conditional (closed₄ high)
  have closed₁ : 1 ≤ e.rank → e.Closed 1 := by
    intro low
    by_cases same : e.rank = 1
    · rw [← same]
      exact closed (by omega)
    · have notTwo := e.rank_ne_two
      exact ofChain .comma (closed₃ (by omega))
  have all : ∀ rank, 1 ≤ rank → rank ≠ 2 → rank ≤ e.rank → rank ≤ 11 → e.Closed rank := by
    intro rank isPos notTwo high low
    interval_cases rank
    · exact closed₁ high
    · exact absurd rfl notTwo
    · exact closed₃ high
    · exact closed₄ high
    · exact closed₅ high
    · exact closed₆ high
    · exact closed₇ high
    · exact closed₈ high
    · exact closed₉ high
    · exact closed₁₀ high
    · exact closed₁₁ high
  have openAll : e.OpenArgs := by
    by_cases isComma : e.level = 1
    · exact openArgs isComma
    · refine openArgs_of_closed isComma (closed₃ ?_)
      have notTwo := e.rank_ne_two
      have isPos := derivable.level_pos
      clear * - isComma notTwo isPos
      unfold rank at *
      split_ifs at * <;> omega
  refine ⟨all, fun chain high => ?_, openPostfix, openAll⟩
  by_cases same : chain.rank = e.rank
  · exact opened chain same
  · refine open_of_closed (all _ ?_ ?_ ?_ ?_)
    · exact (Nat.zero_le _).trans_lt chain.rank_lt
    · cases chain <;> decide
    · have notTwo := e.rank_ne_two
      cases chain <;> simp only [Chain.rank, Chain.operandRank] at * <;> omega
    · cases chain <;> decide

end Expr

end Script
end MuonJs
