import MuonJs.Script.Emission

/-!
# Stack heights of compiled code

The code of every expression raises the stack by one, and the code of every
statement leaves its height unchanged, whatever the text and however the parsers
call each other.
-/

namespace MuonJs
namespace Script

open Cache (Bytes F64 asBytes)
open StackCode StmtCompiler

/-! ## Expressions -/

/-- What a parser adds leaves one value, in place of so many that it finds. -/
def EmitsValue (found : ℕ) (parse : StmtCompiler → Bytes → Option (StmtCompiler × Bytes)) :
    Prop :=
  ∀ ⦃sc input sc' rest⦄, parse sc input = some (sc', rest) → Emits found 1 sc sc'

/-- The parsers emit what they should, with this much fuel. -/
structure ExprEmits (fuel : ℕ) : Prop where
  comma : EmitsValue 0 (parseComma fuel)
  commaRest : EmitsValue 1 (parseCommaRest fuel)
  conditional : EmitsValue 0 (parseConditional fuel)
  logicalOr : EmitsValue 0 (parseLogicalOr fuel)
  logicalOrRest : EmitsValue 1 (parseLogicalOrRest fuel)
  logicalAnd : EmitsValue 0 (parseLogicalAnd fuel)
  logicalAndRest : EmitsValue 1 (parseLogicalAndRest fuel)
  comparison : EmitsValue 0 (parseComparison fuel)
  comparisonRest : EmitsValue 1 (parseComparisonRest fuel)
  assignment : EmitsValue 0 (parseAssignment fuel)
  expr : EmitsValue 0 (parseExpr fuel)
  exprRest : EmitsValue 1 (parseExprRest fuel)
  term : EmitsValue 0 (parseTerm fuel)
  termRest : EmitsValue 1 (parseTermRest fuel)
  factor : EmitsValue 0 (parseFactor fuel)
  chain : EmitsValue 0 (parsePostfix fuel)
  chainRest : EmitsValue 1 (parsePostfixRest fuel)
  arguments : ∀ {sc input argc sc' rest},
    parseArguments fuel sc input = some (argc, sc', rest) →
    ∃ count, argc = UInt32.ofNat count ∧ Emits 0 count sc sc'
  argumentsRest : ∀ {count sc input argc sc' rest},
    parseArgumentsRest fuel (UInt32.ofNat count) sc input = some (argc, sc', rest) →
    ∃ total, argc = UInt32.ofNat total ∧ Emits count total sc sc'
  primary : EmitsValue 0 (parsePrimary fuel)

/-- Operators that take two values and leave one. -/
def IsBinary (op : OpCode) : Prop :=
  Instruction.shape ⟨op, 0, 0⟩ = ⟨2, 1, .next⟩ ∧ op.operandKind = .other

/-- Operators that take a value and leave one. -/
def IsUnary (op : OpCode) : Prop :=
  Instruction.shape ⟨op, 0, 0⟩ = ⟨1, 1, .next⟩ ∧ op.operandKind = .other

theorem literal_made (sc : StmtCompiler) (value : JSValue) :
    Made (fun _ _ => True) sc (sc.pushConst value) :=
  pushConst_made (.refl sc) rfl fun _ => trivial

/-- The right operand of a binary operator, and the operator. -/
theorem binary_emits
    {sc sc' : StmtCompiler} {op : OpCode} (right : Emits 0 1 sc sc') (isBinary : IsBinary op) :
    Emits 1 1 sc (sc'.emitOp op) :=
  (right.lift 1).trans (emitInst_emits sc' op 0 2 1 isBinary.1 (by decide) isBinary.2 0)

theorem unary_emits
    {sc sc' : StmtCompiler} {op : OpCode} (operand : Emits 0 1 sc sc') (isUnary : IsUnary op) :
    Emits 0 1 sc (sc'.emitOp op) :=
  operand.trans (emitInst_emits sc' op 0 1 1 isUnary.1 (by decide) isUnary.2 0)

theorem matchOp_mem
    {ops : List (Bytes × OpCode)} {input rest : Bytes} {op : OpCode}
    (isMatch : matchOp ops input = some (op, rest)) : op ∈ ops.map Prod.snd := by
  induction ops with
  | nil => cases isMatch
  | cons first ops ih =>
      rw [matchOp] at isMatch
      split at isMatch
      · cases isMatch
        exact List.mem_cons_self
      · exact List.mem_cons_of_mem _ (ih isMatch)

theorem isBinary_of_comparison
    {input rest : Bytes} {op : OpCode}
    (isMatch : matchOp comparisonOps input = some (op, rest)) : IsBinary op := by
  have isOp := matchOp_mem isMatch
  rw [comparisonOps] at isOp
  simp only [List.map_cons, List.map_nil, List.mem_cons, List.not_mem_nil, or_false] at isOp
  rcases isOp with rfl | rfl | rfl | rfl | rfl | rfl | rfl | rfl <;> exact ⟨rfl, rfl⟩

theorem isBinary_of_term
    {input rest : Bytes} {op : OpCode}
    (isMatch : matchOp termOps input = some (op, rest)) : IsBinary op := by
  have isOp := matchOp_mem isMatch
  rw [termOps] at isOp
  simp only [List.map_cons, List.map_nil, List.mem_cons, List.not_mem_nil, or_false] at isOp
  rcases isOp with rfl | rfl | rfl <;> exact ⟨rfl, rfl⟩

/-- An operand, and what follows it. -/
theorem emitsValue_chain {operand more : StmtCompiler → Bytes → Option (StmtCompiler × Bytes)}
    (isOperand : EmitsValue 0 operand) (isMore : EmitsValue 1 more) :
    EmitsValue 0 fun sc input => (operand sc input).bind fun next => more next.1 next.2 := by
  intro sc input sc' rest parsed
  obtain ⟨next, first, later⟩ := Option.bind_eq_some_iff.mp parsed
  exact (isOperand first).trans (isMore later)

section Steps

variable {fuel : ℕ} (ih : ExprEmits fuel) {sc sc' : StmtCompiler} {input rest : Bytes}

include ih

theorem comma_step : EmitsValue 0 (parseComma (fuel + 1)) :=
  emitsValue_chain ih.conditional ih.commaRest

theorem commaRest_step : EmitsValue 1 (parseCommaRest (fuel + 1)) := by
  intro sc input sc' rest parsed
  rw [parseCommaRest] at parsed
  split at parsed
  · cases parsed
    exact .refl 1 sc
  · obtain ⟨⟨sc₁, input₁⟩, first, later⟩ := Option.bind_eq_some_iff.mp parsed
    exact (emitInst_emits sc .drop 0 1 0 rfl (by decide) rfl 0).trans
      ((ih.conditional first).trans (ih.commaRest later))

theorem conditional_step : EmitsValue 0 (parseConditional (fuel + 1)) := by
  intro sc input sc' rest parsed
  rw [parseConditional] at parsed
  obtain ⟨⟨sc₁, input₁⟩, first, later⟩ := Option.bind_eq_some_iff.mp parsed
  dsimp only at later
  split at later
  · cases later
    exact ih.logicalOr first
  · obtain ⟨⟨sc₂, input₂⟩, second, later⟩ := Option.bind_eq_some_iff.mp later
    obtain ⟨input₃, -, later⟩ := Option.bind_eq_some_iff.mp later
    obtain ⟨⟨sc₃, input₄⟩, third, later⟩ := Option.bind_eq_some_iff.mp later
    cases later
    exact (ih.logicalOr first).trans
      (Emits.choice (ih.conditional second) (ih.conditional third))

theorem logicalOr_step : EmitsValue 0 (parseLogicalOr (fuel + 1)) :=
  emitsValue_chain ih.logicalAnd ih.logicalOrRest

theorem logicalOrRest_step : EmitsValue 1 (parseLogicalOrRest (fuel + 1)) := by
  intro sc input sc' rest parsed
  rw [parseLogicalOrRest] at parsed
  split at parsed
  · cases parsed
    exact .refl 1 sc
  · obtain ⟨⟨sc₁, input₁⟩, first, later⟩ := Option.bind_eq_some_iff.mp parsed
    exact (binary_emits (ih.logicalAnd first) ⟨rfl, rfl⟩).trans (ih.logicalOrRest later)

theorem logicalAnd_step : EmitsValue 0 (parseLogicalAnd (fuel + 1)) :=
  emitsValue_chain ih.comparison ih.logicalAndRest

theorem logicalAndRest_step : EmitsValue 1 (parseLogicalAndRest (fuel + 1)) := by
  intro sc input sc' rest parsed
  rw [parseLogicalAndRest] at parsed
  split at parsed
  · cases parsed
    exact .refl 1 sc
  · obtain ⟨⟨sc₁, input₁⟩, first, later⟩ := Option.bind_eq_some_iff.mp parsed
    exact (binary_emits (ih.comparison first) ⟨rfl, rfl⟩).trans (ih.logicalAndRest later)

theorem comparison_step : EmitsValue 0 (parseComparison (fuel + 1)) :=
  emitsValue_chain ih.assignment ih.comparisonRest

theorem comparisonRest_step : EmitsValue 1 (parseComparisonRest (fuel + 1)) := by
  intro sc input sc' rest parsed
  rw [parseComparisonRest] at parsed
  split at parsed
  · cases parsed
    exact .refl 1 sc
  · rename_i isMatch
    obtain ⟨⟨sc₁, input₁⟩, first, later⟩ := Option.bind_eq_some_iff.mp parsed
    exact (binary_emits (ih.assignment first) (isBinary_of_comparison isMatch)).trans
      (ih.comparisonRest later)

/-- A local is loaded, changed by the value of an expression, and stored. -/
theorem compound_emits
    {name : Bytes} {slot : UInt32} {op : OpCode} (isFound : sc.findLocal name = some slot)
    (isBinary : IsBinary op) {input₁ : Bytes} {sc₁ : StmtCompiler}
    (parsed : parseExpr fuel (sc.emitInst .loadLocal slot) input₁ = some (sc₁, rest)) :
    Emits 0 1 sc ((sc₁.emitOp op).storeLocal slot) := by
  have load : Emits 0 1 sc (sc.emitInst .loadLocal slot) :=
    onLocal_emits sc .loadLocal slot 0 0 1 rfl (by decide) rfl (findLocal_inRange isFound) 0
  have right := ih.expr parsed
  have computed := binary_emits right isBinary
  refine load.trans (computed.trans (storeLocal_emits (fun small => ?_) 0))
  have grows := load.grows.trans (right.grows.trans (push_grows sc₁ op 0 0))
  have smaller := load.small (right.small (push_small small))
  exact (findLocal_inRange isFound smaller).trans_le grows.locals.length_le

theorem assignment_step : EmitsValue 0 (parseAssignment (fuel + 1)) := by
  intro sc input sc' rest parsed
  rw [parseAssignment] at parsed
  dsimp only at parsed
  split at parsed
  · exact ih.expr parsed
  · rename_i name input₁ _
    split at parsed
    · split at parsed
      · rename_i slot isFound
        obtain ⟨⟨sc₁, input₂⟩, first, later⟩ := Option.bind_eq_some_iff.mp parsed
        cases later
        exact compound_emits ih isFound ⟨rfl, rfl⟩ first
      · obtain ⟨⟨sc₁, input₂⟩, first, later⟩ := Option.bind_eq_some_iff.mp parsed
        cases later
        exact (emitOn_loadGlobal_emits sc name 0).trans
          ((binary_emits (ih.expr first) ⟨rfl, rfl⟩).trans
            (emitOn_storeGlobal_emits (sc₁.emitOp .add) name 0))
    · split at parsed
      · split at parsed
        · rename_i slot isFound
          obtain ⟨⟨sc₁, input₂⟩, first, later⟩ := Option.bind_eq_some_iff.mp parsed
          cases later
          exact compound_emits ih isFound ⟨rfl, rfl⟩ first
        · cases parsed
      · split at parsed
        · exact ih.expr parsed
        · split at parsed
          · exact ih.expr parsed
          · obtain ⟨⟨sc₁, input₂⟩, first, later⟩ := Option.bind_eq_some_iff.mp parsed
            dsimp only at later
            split at later
            · rename_i slot isFound
              cases later
              exact (ih.assignment first).trans
                (storeLocal_emits (findLocal_inRange isFound) 0)
            · cases later
              exact (ih.assignment first).trans (emitOn_storeGlobal_emits sc₁ name 0)

theorem expr_step : EmitsValue 0 (parseExpr (fuel + 1)) :=
  emitsValue_chain ih.term ih.exprRest

theorem exprRest_step : EmitsValue 1 (parseExprRest (fuel + 1)) := by
  intro sc input sc' rest parsed
  rw [parseExprRest] at parsed
  split at parsed
  · split at parsed
    · cases parsed
    · obtain ⟨⟨sc₁, input₁⟩, first, later⟩ := Option.bind_eq_some_iff.mp parsed
      exact (binary_emits (ih.term first) ⟨rfl, rfl⟩).trans (ih.exprRest later)
  · split at parsed
    · split at parsed
      · cases parsed
      · obtain ⟨⟨sc₁, input₁⟩, first, later⟩ := Option.bind_eq_some_iff.mp parsed
        exact (binary_emits (ih.term first) ⟨rfl, rfl⟩).trans (ih.exprRest later)
    · cases parsed
      exact .refl 1 sc

theorem term_step : EmitsValue 0 (parseTerm (fuel + 1)) :=
  emitsValue_chain ih.factor ih.termRest

theorem termRest_step : EmitsValue 1 (parseTermRest (fuel + 1)) := by
  intro sc input sc' rest parsed
  rw [parseTermRest] at parsed
  split at parsed
  · cases parsed
    exact .refl 1 sc
  · rename_i isMatch
    obtain ⟨⟨sc₁, input₁⟩, first, later⟩ := Option.bind_eq_some_iff.mp parsed
    exact (binary_emits (ih.factor first) (isBinary_of_term isMatch)).trans (ih.termRest later)

theorem factor_step : EmitsValue 0 (parseFactor (fuel + 1)) := by
  intro sc input sc' rest parsed
  rw [parseFactor] at parsed
  dsimp only at parsed
  split at parsed
  · exact ih.factor parsed
  · split at parsed
    · rename_i isMatch
      obtain ⟨⟨sc₁, input₁⟩, first, later⟩ := Option.bind_eq_some_iff.mp parsed
      cases later
      refine unary_emits (ih.factor first) ?_
      have isOp := matchOp_mem isMatch
      simp only [List.map_cons, List.map_nil, List.mem_cons, List.not_mem_nil, or_false] at isOp
      rcases isOp with rfl | rfl | rfl <;> exact ⟨rfl, rfl⟩
    · exact ih.chain parsed

theorem postfix_step : EmitsValue 0 (parsePostfix (fuel + 1)) :=
  emitsValue_chain ih.primary ih.chainRest

omit ih in
/-- The number of arguments is the operand of the call. -/
theorem call_emits
    {op : OpCode} {count below : ℕ} (isOther : op.operandKind = .other)
    (isShape : ∀ a, Instruction.shape ⟨op, a, 0⟩ = ⟨a.toNat + below, 1, .next⟩)
    (positive : 0 < below) (emits : Emits 0 count sc sc') :
    Emits below 1 sc (sc'.emitInst op (UInt32.ofNat count)) := by
  by_cases fits : count < 2 ^ 32
  · have isCount : (UInt32.ofNat count).toNat = count := UInt32.toNat_ofNat_of_lt' fits
    have isCall : Instruction.shape ⟨op, UInt32.ofNat count, 0⟩ = ⟨below + count, 1, .next⟩ := by
      rw [isShape, isCount, Nat.add_comm]
    have call := emitInst_emits sc' op (UInt32.ofNat count) (below + count) 1 isCall
      (by omega) isOther 0
    rw [Nat.zero_add] at call
    exact (emits.lift below).trans call
  · have longer := emits.longer
    obtain ⟨added, isAdded, -⟩ := emits.code
    have isCode : (sc'.emitInst op (UInt32.ofNat count)).func.code =
        sc.func.code ++ (added ++ [⟨op, UInt32.ofNat count, 0⟩]) := by
      change sc'.func.code ++ [_] = _
      rw [isAdded, List.append_assoc]
    have large : ¬(sc'.emitInst op (UInt32.ofNat count)).func.Small := by
      intro small
      have tooLarge := (push_small small).code
      omega
    refine ⟨emits.grows.trans (push_grows sc' _ _ _), ?_, _, isCode,
      fun small => absurd small large, fun _ small => absurd small large⟩
    rw [isCode, List.length_append, List.length_append, List.length_singleton]
    omega

theorem postfixRest_step : EmitsValue 1 (parsePostfixRest (fuel + 1)) := by
  intro sc input sc' rest parsed
  rw [parsePostfixRest] at parsed
  dsimp only at parsed
  split at parsed
  · obtain ⟨⟨prop, input₁⟩, -, later⟩ := Option.bind_eq_some_iff.mp parsed
    dsimp only at later
    split at later
    · obtain ⟨⟨argc, sc₁, input₂⟩, isArguments, later⟩ := Option.bind_eq_some_iff.mp later
      obtain ⟨count, rfl, arguments⟩ := ih.arguments isArguments
      have method : Emits 1 2 sc (((sc.emitOp .dup).emitStringConst prop).emitOp .getProp) :=
        (emitInst_emits sc .dup 0 1 2 rfl (by decide) rfl 0).trans
          ((emitOn_const_emits (addStringConst_made _ prop) 2).trans
            (emitInst_emits _ .getProp 0 2 1 rfl (by decide) rfl 1))
      exact method.trans ((call_emits rfl (fun _ => rfl) (by decide) arguments).trans
        (ih.chainRest later))
    · have property : Emits 1 1 sc ((sc.emitStringConst prop).emitOp .getProp) :=
        (emitOn_const_emits (addStringConst_made _ prop) 1).trans
          (emitInst_emits _ .getProp 0 2 1 rfl (by decide) rfl 0)
      exact property.trans (ih.chainRest later)
  · split at parsed
    · obtain ⟨⟨sc₁, input₁⟩, first, later⟩ := Option.bind_eq_some_iff.mp parsed
      obtain ⟨input₂, -, later⟩ := Option.bind_eq_some_iff.mp later
      exact (binary_emits (ih.comma first) ⟨rfl, rfl⟩).trans (ih.chainRest later)
    · split at parsed
      · obtain ⟨⟨argc, sc₁, input₂⟩, isArguments, later⟩ := Option.bind_eq_some_iff.mp parsed
        obtain ⟨count, rfl, arguments⟩ := ih.arguments isArguments
        exact (call_emits rfl (fun _ => rfl) (by decide) arguments).trans (ih.chainRest later)
      · cases parsed
        exact .refl 1 sc

theorem arguments_step
    {argc : UInt32} (parsed : parseArguments (fuel + 1) sc input = some (argc, sc', rest)) :
    ∃ count, argc = UInt32.ofNat count ∧ Emits 0 count sc sc' := by
  rw [parseArguments] at parsed
  split at parsed
  · obtain ⟨input₁, -, isResult⟩ := Option.map_eq_some_iff.mp parsed
    cases isResult
    exact ⟨0, rfl, .refl 0 sc⟩
  · obtain ⟨⟨sc₁, input₁⟩, first, later⟩ := Option.bind_eq_some_iff.mp parsed
    obtain ⟨total, isTotal, more⟩ := ih.argumentsRest (by exact later : parseArgumentsRest fuel (UInt32.ofNat 1) _ _ = _)
    exact ⟨total, isTotal, (ih.conditional first).trans more⟩

theorem argumentsRest_step
    {count : ℕ} {argc : UInt32}
    (parsed : parseArgumentsRest (fuel + 1) (UInt32.ofNat count) sc input =
      some (argc, sc', rest)) :
    ∃ total, argc = UInt32.ofNat total ∧ Emits count total sc sc' := by
  rw [parseArgumentsRest] at parsed
  split at parsed
  · obtain ⟨input₁, -, isResult⟩ := Option.map_eq_some_iff.mp parsed
    cases isResult
    exact ⟨count, rfl, .refl count sc⟩
  · obtain ⟨⟨sc₁, input₁⟩, first, later⟩ := Option.bind_eq_some_iff.mp parsed
    have next : UInt32.ofNat count + 1 = UInt32.ofNat (count + 1) := by
      rw [UInt32.ofNat_add]
      rfl
    dsimp only at later
    rw [next] at later
    obtain ⟨total, isTotal, more⟩ := ih.argumentsRest later
    exact ⟨total, isTotal, ((ih.conditional first).lift count).trans more⟩

theorem primary_step : EmitsValue 0 (parsePrimary (fuel + 1)) := by
  intro sc input sc' rest parsed
  rw [parsePrimary] at parsed
  dsimp only at parsed
  split at parsed
  · obtain ⟨⟨sc₁, input₁⟩, first, later⟩ := Option.bind_eq_some_iff.mp parsed
    obtain ⟨input₂, -, later⟩ := Option.bind_eq_some_iff.mp later
    cases later
    exact ih.comma first
  · split at parsed
    · obtain ⟨⟨text, input₁⟩, -, isResult⟩ := Option.map_eq_some_iff.mp parsed
      cases isResult
      exact emitOn_const_emits (addStringConst_made sc text) 0
    · split at parsed
      · obtain ⟨⟨number, input₁⟩, -, isResult⟩ := Option.map_eq_some_iff.mp parsed
        cases isResult
        exact emitOn_const_emits (addNumberConst_made sc number) 0
      · have literal : ∀ value, Emits 0 1 sc (emitOn .const (sc.pushConst value)) :=
          fun value => emitOn_const_emits (literal_made sc value) 0
        split at parsed
        · cases parsed
        · rename_i name input₁ _
          split at parsed
          · cases parsed
            exact literal _
          · split at parsed
            · cases parsed
              exact literal _
            · split at parsed
              · cases parsed
                exact literal _
              · split at parsed
                · cases parsed
                  exact emitOn_const_emits (addUndefinedConst_made sc) 0
                · split at parsed
                  · split at parsed
                    · obtain ⟨⟨sc₁, input₂⟩, first, later⟩ := Option.bind_eq_some_iff.mp parsed
                      obtain ⟨input₃, -, later⟩ := Option.bind_eq_some_iff.mp later
                      cases later
                      exact unary_emits (ih.comma first) ⟨rfl, rfl⟩
                    · cases parsed
                      exact emitOn_loadGlobal_emits sc name 0
                  · split at parsed
                    · rename_i slot isFound
                      cases parsed
                      exact onLocal_emits sc .loadLocal slot 0 0 1 rfl (by decide) rfl
                        (findLocal_inRange isFound) 0
                    · cases parsed
                      exact emitOn_loadGlobal_emits sc name 0

end Steps

/-- The parsers emit what they should. -/
theorem exprEmits (fuel : ℕ) : ExprEmits fuel := by
  induction fuel with
  | zero =>
      constructor <;> (try unfold EmitsValue) <;> intros <;> rename_i parsed <;> cases parsed
  | succ fuel ih =>
      exact ⟨comma_step ih, commaRest_step ih, conditional_step ih, logicalOr_step ih,
        logicalOrRest_step ih, logicalAnd_step ih, logicalAndRest_step ih, comparison_step ih,
        comparisonRest_step ih, assignment_step ih, expr_step ih, exprRest_step ih,
        term_step ih, termRest_step ih, factor_step ih, postfix_step ih, postfixRest_step ih,
        arguments_step ih, argumentsRest_step ih, primary_step ih⟩

/-! ## Statements -/

theorem compileFullExpr_emits
    {fuel : ℕ} {sc sc' : StmtCompiler} {src : Bytes}
    (compiled : compileFullExpr fuel sc src = some sc') : Emits 0 1 sc sc' := by
  unfold compileFullExpr at compiled
  split at compiled
  · cases compiled
  · rename_i parsed
    split at compiled
    · cases compiled
      exact (exprEmits fuel).comma parsed
    · cases compiled

/-- An expression whose value is dropped. -/
theorem dropped_emits
    {fuel : ℕ} {sc sc' : StmtCompiler} {src : Bytes}
    (compiled : ((compileFullExpr fuel sc src).map fun sc => sc.emitOp .drop) = some sc') :
    Emits 0 0 sc sc' := by
  obtain ⟨sc₁, isExpr, rfl⟩ := Option.map_eq_some_iff.mp compiled
  exact (compileFullExpr_emits isExpr).trans (emitInst_emits sc₁ .drop 0 1 0 rfl (by decide) rfl 0)

theorem ensureLocal_spec (sc : StmtCompiler) (name : Bytes) :
    Grows sc (sc.ensureLocal name).2 ∧
      (sc.ensureLocal name).2.func.code = sc.func.code ∧
      ((sc.ensureLocal name).2.func.Small →
        (sc.ensureLocal name).1.toNat < (sc.ensureLocal name).2.func.locals.length) := by
  unfold ensureLocal
  split
  · rename_i slot isFound
    exact ⟨.refl sc, rfl, findLocal_inRange isFound⟩
  · refine ⟨⟨.refl sc.ctx, List.prefix_rfl, List.prefix_append _ _⟩, rfl, fun small => ?_⟩
    have size : (sc.func.locals ++ [name]).length < 2 ^ 32 := small.locals
    rw [List.length_append, List.length_singleton] at size
    have inRange : sc.func.locals.length < 2 ^ 32 := by omega
    change (UInt32.ofNat sc.func.locals.length).toNat < (sc.func.locals ++ [name]).length
    rw [UInt32.toNat_ofNat_of_lt' inRange, List.length_append]
    exact Nat.lt_succ_self _

/-- A step that adds constants and locals but no code. -/
theorem Grows.emits
    {sc sc' : StmtCompiler} (grows : Grows sc sc') (sameCode : sc'.func.code = sc.func.code)
    (height : ℕ) : Emits height height sc sc' := by
  refine ⟨grows, ?_, [], ?_, fun _ base => Raises.nil _ _, ?_⟩
  · rw [sameCode]
    omega
  · rw [sameCode, List.append_nil]
  · intro _ _ ins isAdded
    cases isAdded

theorem compileVarDecl_emits
    {fuel : ℕ} {sc sc' : StmtCompiler} {text : Bytes}
    (compiled : compileVarDecl fuel sc text = some sc') : Emits 0 0 sc sc' := by
  unfold compileVarDecl at compiled
  dsimp only at compiled
  split at compiled
  · split at compiled
    · obtain ⟨sc₁, isExpr, later⟩ := Option.bind_eq_some_iff.mp compiled
      cases later
      rename_i position _ _
      obtain ⟨grows, sameCode, inRange⟩ :=
        ensureLocal_spec sc (trim ((trim text).take position))
      have expr := compileFullExpr_emits isExpr
      have store := onLocal_emits sc₁ .storeLocal
        (sc.ensureLocal (trim ((trim text).take position))).1 0 1 1 rfl (by decide) rfl
        (fun small => (inRange (expr.small small)).trans_le expr.grows.locals.length_le) 0
      exact (Grows.emits grows sameCode 0).trans (expr.trans (store.trans
        (emitInst_emits _ .drop 0 1 0 rfl (by decide) rfl 0)))
    · cases compiled
  · split at compiled
    · cases compiled
      obtain ⟨grows, sameCode, -⟩ := ensureLocal_spec sc (trim (trimEndMatches 59 (trim text)))
      exact Grows.emits grows sameCode 0
    · cases compiled

theorem namedLocal_inRange
    {sc : StmtCompiler} {text : Bytes} {slot : UInt32} (isNamed : namedLocal sc text = some slot)
    (small : sc.func.Small) : slot.toNat < sc.func.locals.length := by
  unfold namedLocal at isNamed
  split at isNamed
  · exact findLocal_inRange isNamed small
  · cases isNamed

theorem orElse_cases
    {α : Type} {first : Option α} {second : Unit → Option α} {found : α}
    (isFound : first.orElse second = some found) :
    first = some found ∨ second () = some found := by
  cases first with
  | none => exact .inr isFound
  | some value => exact .inl isFound

theorem incUpdate_inRange
    {sc : StmtCompiler} {update : Bytes} {slot amount : UInt32}
    (isUpdate : incUpdate sc update = some (slot, amount)) (small : sc.func.Small) :
    slot.toNat < sc.func.locals.length := by
  have step : ∀ {amount' : UInt32} {name : Bytes} {isMarked : Bool},
      (if isMarked then (namedLocal sc name).map fun slot => (slot, amount') else none) =
        some (slot, amount) → slot.toNat < sc.func.locals.length := by
    intro amount' name isMarked isStep
    split at isStep
    · obtain ⟨slot', isNamed, isPair⟩ := Option.map_eq_some_iff.mp isStep
      cases isPair
      exact namedLocal_inRange isNamed small
    · cases isStep
  unfold incUpdate at isUpdate
  dsimp only at isUpdate
  split at isUpdate
  · cases isUpdate
  · rcases orElse_cases isUpdate with isStep | isLater
    · exact step isStep
    · rcases orElse_cases isLater with isStep | isLater
      · exact step isStep
      · rcases orElse_cases isLater with isStep | isStep
        · exact step isStep
        · exact step isStep

theorem addUpdate_inRange
    {sc : StmtCompiler} {update seq : Bytes} {change : Int32 → Int32} {slot amount : UInt32}
    (isUpdate : addUpdate sc update seq change = some (slot, amount)) (small : sc.func.Small) :
    slot.toNat < sc.func.locals.length := by
  obtain ⟨position, -, later⟩ := Option.bind_eq_some_iff.mp isUpdate
  obtain ⟨slot', isNamed, later⟩ := Option.bind_eq_some_iff.mp later
  obtain ⟨number, -, isPair⟩ := Option.map_eq_some_iff.mp later
  cases isPair
  exact namedLocal_inRange isNamed small

theorem tryCompileIncUpdate_emits
    {sc sc' : StmtCompiler} {update : Bytes}
    (compiled : tryCompileIncUpdate sc update = some sc') : Emits 0 0 sc sc' := by
  unfold tryCompileIncUpdate at compiled
  obtain ⟨⟨slot, amount⟩, isUpdate, rfl⟩ := Option.map_eq_some_iff.mp compiled
  refine onLocal_emits sc .incLocal slot amount 0 0 rfl (by decide) rfl (fun small => ?_) 0
  rcases orElse_cases isUpdate with isInc | isLater
  · exact incUpdate_inRange isInc small
  · rcases orElse_cases isLater with isAdd | isSub
    · exact addUpdate_inRange isAdd small
    · exact addUpdate_inRange isSub small

theorem compileUpdate_emits
    {fuel : ℕ} {sc sc' : StmtCompiler} {update : Bytes}
    (compiled : compileUpdate fuel sc update = some sc') : Emits 0 0 sc sc' := by
  unfold compileUpdate at compiled
  dsimp only at compiled
  split at compiled
  · cases compiled
    exact .refl 0 sc
  · split at compiled
    · rename_i isInc
      cases compiled
      exact tryCompileIncUpdate_emits isInc
    · exact dropped_emits compiled

theorem compileInit_emits
    {fuel : ℕ} {sc sc' : StmtCompiler} {init : Bytes}
    (compiled : compileInit fuel sc init = some sc') : Emits 0 0 sc sc' := by
  unfold compileInit at compiled
  dsimp only at compiled
  split at compiled
  · cases compiled
    exact .refl 0 sc
  · split at compiled
    · exact compileVarDecl_emits compiled
    · exact dropped_emits compiled

/-- After a return the height may be any; nothing is left of the value. -/
theorem return_emits (sc : StmtCompiler) : Emits 1 0 sc (sc.emitOp .return) := by
  refine ⟨push_grows sc _ _ _, ?_, [⟨.return, 0, 0⟩], rfl, ?_, ?_⟩
  · change _ ≤ (sc.func.code ++ [_]).length
    rw [List.length_append]
    omega
  · intro _ base
    exact Raises.stop rfl (Nat.le_add_left 1 base)
  · intro _ _ ins isAdded
    rw [List.mem_singleton.mp isAdded]
    trivial

theorem compileReturn_emits
    {fuel : ℕ} {sc sc' : StmtCompiler} {expr : Bytes}
    (compiled : compileReturn fuel sc expr = some sc') : Emits 0 0 sc sc' := by
  unfold compileReturn at compiled
  split at compiled
  · cases compiled
    exact (emitOn_const_emits (addUndefinedConst_made sc) 0).trans (return_emits _)
  · obtain ⟨sc₁, isExpr, rfl⟩ := Option.map_eq_some_iff.mp compiled
    exact (compileFullExpr_emits isExpr).trans (return_emits sc₁)

/-- The compiler of statements keeps the height, with this much fuel. -/
structure StmtEmits (fuel : ℕ) : Prop where
  stmt : ∀ {sc text sc'}, compileStmt fuel sc text = some sc' → Emits 0 0 sc sc'
  body : ∀ {sc stmts sc'}, compileBody fuel sc stmts = some sc' → Emits 0 0 sc sc'
  forLoop : ∀ {sc text sc'}, compileForLoop fuel sc text = some sc' → Emits 0 0 sc sc'
  ifStmt : ∀ {sc text sc'}, compileIfStmt fuel sc text = some sc' → Emits 0 0 sc sc'

section Steps

variable {fuel : ℕ} (ih : StmtEmits fuel) {sc sc' : StmtCompiler} {text : Bytes}

include ih

theorem stmt_step (compiled : compileStmt (fuel + 1) sc text = some sc') : Emits 0 0 sc sc' := by
  rw [compileStmt] at compiled
  split at compiled
  · cases compiled
    exact .refl 0 sc
  · split at compiled
    · exact compileVarDecl_emits compiled
    · split at compiled
      · exact compileReturn_emits compiled
      · split at compiled
        · exact compileReturn_emits compiled
        · split at compiled
          · exact ih.forLoop compiled
          · split at compiled
            · exact ih.ifStmt compiled
            · exact dropped_emits compiled

theorem body_step
    {stmts : List Bytes} (compiled : compileBody (fuel + 1) sc stmts = some sc') :
    Emits 0 0 sc sc' := by
  cases stmts with
  | nil =>
      rw [compileBody] at compiled
      cases compiled
      exact .refl 0 sc
  | cons stmt stmts =>
      rw [compileBody] at compiled
      obtain ⟨sc₁, first, later⟩ := Option.bind_eq_some_iff.mp compiled
      exact (ih.stmt first).trans (ih.body later)

theorem forLoop_step
    (compiled : compileForLoop (fuel + 1) sc text = some sc') : Emits 0 0 sc sc' := by
  rw [compileForLoop] at compiled
  obtain ⟨⟨header, after⟩, -, compiled⟩ := Option.bind_eq_some_iff.mp compiled
  obtain ⟨⟨init, cond, update⟩, -, compiled⟩ := Option.bind_eq_some_iff.mp compiled
  obtain ⟨sc₁, isInit, compiled⟩ := Option.bind_eq_some_iff.mp compiled
  obtain ⟨jumpEnd, isCond, compiled⟩ := Option.bind_eq_some_iff.mp compiled
  obtain ⟨body, -, compiled⟩ := Option.bind_eq_some_iff.mp compiled
  have start := compileInit_emits isInit
  cases jumpEnd with
  | none =>
      obtain ⟨sc₂, isBody, compiled⟩ := Option.bind_eq_some_iff.mp compiled
      obtain ⟨sc₃, isUpdate, compiled⟩ := Option.bind_eq_some_iff.mp compiled
      cases compiled
      exact start.trans
        (Emits.forever ((ih.body isBody).trans (compileUpdate_emits isUpdate)))
  | some sc₂ =>
      obtain ⟨sc₃, isBody, compiled⟩ := Option.bind_eq_some_iff.mp compiled
      obtain ⟨sc₄, isUpdate, compiled⟩ := Option.bind_eq_some_iff.mp compiled
      cases compiled
      have condition : Emits 0 1 sc₁ sc₂ := by
        unfold compileCondition at isCond
        split at isCond
        · cases isCond
        · obtain ⟨sc₅, isExpr, isSome⟩ := Option.map_eq_some_iff.mp isCond
          cases isSome
          exact compileFullExpr_emits isExpr
      exact start.trans
        (Emits.loop condition ((ih.body isBody).trans (compileUpdate_emits isUpdate)))

theorem ifStmt_step
    (compiled : compileIfStmt (fuel + 1) sc text = some sc') : Emits 0 0 sc sc' := by
  rw [compileIfStmt] at compiled
  obtain ⟨⟨cond, after⟩, -, compiled⟩ := Option.bind_eq_some_iff.mp compiled
  obtain ⟨sc₁, isCond, compiled⟩ := Option.bind_eq_some_iff.mp compiled
  obtain ⟨body, -, compiled⟩ := Option.bind_eq_some_iff.mp compiled
  obtain ⟨sc₂, isBody, compiled⟩ := Option.bind_eq_some_iff.mp compiled
  have condition := compileFullExpr_emits isCond
  split at compiled
  · cases compiled
    exact condition.trans (Emits.skip (ih.body isBody))
  · rename_i otherwise _
    obtain ⟨sc₃, isElse, rfl⟩ := Option.map_eq_some_iff.mp compiled
    have alternative : Emits 0 0
        ((sc₂.emitOp .jump).patchJump sc₁.func.code.length) sc₃ := by
      split at isElse
      · exact ih.ifStmt isElse
      · obtain ⟨elseBody, -, isBody'⟩ := Option.bind_eq_some_iff.mp isElse
        exact ih.body isBody'
    exact condition.trans (Emits.choice (ih.body isBody) alternative)

end Steps

/-- Statements keep the height. -/
theorem stmtEmits (fuel : ℕ) : StmtEmits fuel := by
  induction fuel with
  | zero => constructor <;> intros <;> rename_i compiled <;> cases compiled
  | succ fuel ih => exact ⟨stmt_step ih, body_step ih, forLoop_step ih, ifStmt_step ih⟩

end Script
end MuonJs
