import MuonJs.Lib.Descent
import MuonJs.Script.Compiler

/-!
# The fuel of the expression parser

More fuel does not change what a parser comes to.
-/

namespace MuonJs
namespace Script

open Cache (Bytes)
open Descent (Extends)

/-- One unit of fuel more changes no outcome. -/
def ExtendsNext {α : Type} (parse : ℕ → StmtCompiler → Bytes → Option α) (fuel : ℕ) : Prop :=
  ∀ sc input, Extends (parse fuel sc input) (parse (fuel + 1) sc input)

/-- One unit of fuel more changes no outcome of a parser. -/
structure MoreFuel (fuel : ℕ) : Prop where
  comma : ExtendsNext parseComma fuel
  commaRest : ExtendsNext parseCommaRest fuel
  conditional : ExtendsNext parseConditional fuel
  logicalOr : ExtendsNext parseLogicalOr fuel
  logicalOrRest : ExtendsNext parseLogicalOrRest fuel
  logicalAnd : ExtendsNext parseLogicalAnd fuel
  logicalAndRest : ExtendsNext parseLogicalAndRest fuel
  comparison : ExtendsNext parseComparison fuel
  comparisonRest : ExtendsNext parseComparisonRest fuel
  assignment : ExtendsNext parseAssignment fuel
  expr : ExtendsNext parseExpr fuel
  exprRest : ExtendsNext parseExprRest fuel
  term : ExtendsNext parseTerm fuel
  termRest : ExtendsNext parseTermRest fuel
  factor : ExtendsNext parseFactor fuel
  postfixExpr : ExtendsNext parsePostfix fuel
  postfixRest : ExtendsNext parsePostfixRest fuel
  arguments : ExtendsNext parseArguments fuel
  argumentsRest : ∀ argc sc input,
    Extends (parseArgumentsRest fuel argc sc input) (parseArgumentsRest (fuel + 1) argc sc input)
  primary : ExtendsNext parsePrimary fuel

namespace MoreFuel

theorem zero : MoreFuel 0 := by
  constructor <;> (try unfold ExtendsNext) <;> intros <;> exact Extends.none_left _

variable {fuel : ℕ} (more : MoreFuel fuel)

include more

/-- With one unit of fuel more, the calls of a parser have one more, too. -/
theorem succ : MoreFuel (fuel + 1) where
  comma sc input := (more.conditional sc input).bind fun _ => more.commaRest _ _
  commaRest sc input := by
    simp only [parseCommaRest]
    cases consume 44 (skipWs input) with
    | none => exact .refl _
    | some input => exact (more.conditional _ input).bind fun _ => more.commaRest _ _
  conditional sc input := by
    simp only [parseConditional]
    refine (more.logicalOr sc input).bind fun test => ?_
    cases consume 63 (skipWs test.2) with
    | none => exact .refl _
    | some input =>
        refine (more.conditional _ input).bind fun yes => ?_
        exact (Extends.refl _).bind fun input => (more.conditional _ input).bind fun _ => .refl _
  logicalOr sc input := (more.logicalAnd sc input).bind fun _ => more.logicalOrRest _ _
  logicalOrRest sc input := by
    simp only [parseLogicalOrRest]
    cases consumeSeq [124, 124] (skipWs input) with
    | none => exact .refl _
    | some input => exact (more.logicalAnd _ input).bind fun _ => more.logicalOrRest _ _
  logicalAnd sc input := (more.comparison sc input).bind fun _ => more.logicalAndRest _ _
  logicalAndRest sc input := by
    simp only [parseLogicalAndRest]
    cases consumeSeq [38, 38] (skipWs input) with
    | none => exact .refl _
    | some input => exact (more.comparison _ input).bind fun _ => more.logicalAndRest _ _
  comparison sc input := (more.assignment sc input).bind fun _ => more.comparisonRest _ _
  comparisonRest sc input := by
    simp only [parseComparisonRest]
    cases matchOp comparisonOps (skipWs input) with
    | none => exact .refl _
    | some next => exact (more.assignment _ next.2).bind fun _ => more.comparisonRest _ _
  assignment sc input := by
    simp only [parseAssignment]
    cases parseIdentifier (skipWs input) with
    | none => exact more.expr sc _
    | some next =>
        dsimp only
        cases consumeSeq [43, 61] (skipWs next.2) with
        | some input =>
            dsimp only
            cases sc.findLocal next.1 with
            | some slot => exact (more.expr _ input).bind fun _ => .refl _
            | none => exact (more.expr _ input).bind fun _ => .refl _
        | none =>
            dsimp only
            cases consumeSeq [45, 61] (skipWs next.2) with
            | some input =>
                dsimp only
                cases sc.findLocal next.1 with
                | some slot => exact (more.expr _ input).bind fun _ => .refl _
                | none => exact .refl _
            | none =>
                dsimp only
                cases consume 61 (skipWs next.2) with
                | none => exact more.expr sc _
                | some input =>
                    dsimp only
                    split
                    · exact more.expr sc _
                    · exact (more.assignment sc input).bind fun _ => .refl _
  expr sc input := (more.term sc input).bind fun _ => more.exprRest _ _
  exprRest sc input := by
    simp only [parseExprRest]
    cases consume 43 (skipWs input) with
    | some input =>
        dsimp only
        split
        · exact .refl _
        · exact (more.term sc input).bind fun _ => more.exprRest _ _
    | none =>
        dsimp only
        cases consume 45 (skipWs input) with
        | some input =>
            dsimp only
            split
            · exact .refl _
            · exact (more.term sc input).bind fun _ => more.exprRest _ _
        | none => exact .refl _
  term sc input := (more.factor sc input).bind fun _ => more.termRest _ _
  termRest sc input := by
    simp only [parseTermRest]
    cases matchOp termOps (skipWs input) with
    | none => exact .refl _
    | some next => exact (more.factor _ next.2).bind fun _ => more.termRest _ _
  factor sc input := by
    simp only [parseFactor]
    cases consume 43 (skipWs input) with
    | some input => exact more.factor sc input
    | none =>
        dsimp only
        cases matchOp [([45], .neg), ([33], .not), ([126], .bitNot)] (skipWs input) with
        | none => exact more.postfixExpr sc _
        | some next => exact (more.factor sc next.2).bind fun _ => .refl _
  postfixExpr sc input := (more.primary sc input).bind fun _ => more.postfixRest _ _
  postfixRest sc input := by
    simp only [parsePostfixRest]
    cases consume 46 (skipWs input) with
    | some input =>
        refine (Extends.refl _).bind fun prop => ?_
        cases consume 40 (skipWs prop.2) with
        | some input => exact (more.arguments _ input).bind fun _ => more.postfixRest _ _
        | none => exact more.postfixRest _ _
    | none =>
        dsimp only
        cases consume 91 (skipWs input) with
        | some input =>
            refine (more.comma sc input).bind fun _ => ?_
            exact (Extends.refl _).bind fun _ => more.postfixRest _ _
        | none =>
            dsimp only
            cases consume 40 (skipWs input) with
            | some input => exact (more.arguments _ input).bind fun _ => more.postfixRest _ _
            | none => exact .refl _
  arguments sc input := by
    simp only [parseArguments]
    split
    · exact .refl _
    · exact (more.conditional sc _).bind fun _ => more.argumentsRest _ _ _
  argumentsRest argc sc input := by
    simp only [parseArgumentsRest]
    cases consume 44 (skipWs input) with
    | none => exact .refl _
    | some input => exact (more.conditional sc input).bind fun _ => more.argumentsRest _ _ _
  primary sc input := by
    simp only [parsePrimary]
    cases consume 40 (skipWs input) with
    | some input => exact (more.comma sc input).bind fun _ => .refl _
    | none =>
        dsimp only
        split
        · exact .refl _
        · split
          · exact .refl _
          · cases parseIdentifier (skipWs input) with
            | none => exact .refl _
            | some next =>
                dsimp only
                split_ifs
                · exact .refl _
                · exact .refl _
                · exact .refl _
                · exact .refl _
                · cases consume 40 (skipWs next.2) with
                  | some input => exact (more.comma sc input).bind fun _ => .refl _
                  | none => exact .refl _
                · exact .refl _

end MoreFuel

theorem moreFuel (fuel : ℕ) : MoreFuel fuel := by
  induction fuel with
  | zero => exact .zero
  | succ fuel ih => exact ih.succ

/-- More fuel does not change the code of an expression. -/
theorem compileFullExpr_extends (fuel : ℕ) (sc : StmtCompiler) (src : Bytes) :
    Extends (compileFullExpr fuel sc src) (compileFullExpr (fuel + 1) sc src) := by
  intro after isSome
  unfold compileFullExpr at *
  cases isParsed : parseComma fuel sc src with
  | none =>
      rw [isParsed] at isSome
      cases isSome
  | some pair =>
      rw [isParsed] at isSome
      rw [(moreFuel fuel).comma sc src pair isParsed]
      exact isSome

end Script
end MuonJs
