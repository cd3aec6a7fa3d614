import MuonJs.Script.Fuel
import MuonJs.Script.Grouping

/-!
# Precedence

A text that derives from the grammar compiles to the code of its tree, when the
compiler groups the tree as the grammar does; so does the same expression with
parentheses around every operand.  An equality with a bare relational expression
to its right is grouped otherwise.
-/

namespace MuonJs
namespace Script

open Cache (Bytes asBytes)
open Descent (Settles Fails Extends)

namespace Expr

/-! ## Texts -/

/-- The code of a text is the code of its tree. -/
theorem compiles_iff
    {e : Expr} (derivable : e.Derivable) (grouped : e.Grouped) {text : Bytes}
    (spells : Spells e.tokens text) (sc after : StmtCompiler) :
    (∃ fuel, compileFullExpr fuel sc text = some after) ↔ e.emit false sc = some after := by
  rw [← List.append_nil e.tokens] at spells
  have comes := (e.reads derivable grouped).1.closed 1 (by decide) (by decide)
    derivable.rank_pos (by decide) sc text [] spells (by rintro _ ⟨⟩)
  have compiles : ∀ sc', e.emit false sc = some sc' →
      Settles (fun fuel => compileFullExpr fuel sc text) (some sc') := by
    intro sc' isEmitted
    obtain ⟨left, spellsLeft, settles⟩ := comes.1 sc' isEmitted
    refine settles.mono fun fuel isParsed => ?_
    have isParsed : parseComma fuel sc text = some (sc', left) := isParsed
    unfold compileFullExpr
    dsimp only
    rw [isParsed]
    dsimp only
    rw [spellsLeft.skipWs_nil]
    rfl
  constructor
  · rintro ⟨fuel, isCompiled⟩
    have settles := Extends.settles (fun fuel => compileFullExpr_extends fuel sc text) isCompiled
    cases isEmitted : e.emit false sc with
    | some sc' => exact (compiles sc' isEmitted).unique settles
    | none =>
        obtain ⟨outcome, settlesTo, stuck⟩ := comes.2 isEmitted
        have isNone : Settles (fun fuel => compileFullExpr fuel sc text) none := by
          refine settlesTo.mono fun fuel isParsed => ?_
          have isParsed : parseComma fuel sc text = outcome := isParsed
          unfold compileFullExpr
          dsimp only
          rw [isParsed]
          cases outcome with
          | none => rfl
          | some pair =>
              obtain ⟨rest, isFront, -⟩ := stuck pair.1 pair.2 rfl
              dsimp only
              rw [isFront]
              rfl
        exact isNone.unique settles
  · intro isEmitted
    exact (compiles after isEmitted).exists

/-! ## Full parentheses -/

theorem level_full (e : Expr) : (e.full false).level = e.level := by
  cases e <;> rfl

theorem isNoArgs_full (e : Expr) : (e.full true).isNoArgs = e.isNoArgs := by
  cases e <;> rfl

theorem isMember_full (e : Expr) : (e.full false).isMember = e.isMember := by
  cases e <;> rfl

theorem isNumberName_full (e : Expr) : (e.full false).isNumberName = e.isNumberName := by
  cases e <;> rfl

theorem argc_full (e : Expr) : (e.full true).argc = e.argc := by
  induction e with
  | comma left right ih =>
      change (left.full true).argc + 1 = left.argc + 1
      rw [ih]
  | _ => rfl

theorem derivable_close {e : Expr} (isArgs : Bool) (derivable : e.Derivable) :
    (close isArgs e).Derivable := by
  cases isArgs <;> exact derivable

/-- The expression with full parentheses derives from the grammar, too. -/
theorem derivable_full {e : Expr} (derivable : e.Derivable) :
    ∀ isArgs, (e.full isArgs).Derivable := by
  induction e with
  | ident name => exact fun isArgs => derivable_close isArgs trivial
  | number literal => exact fun isArgs => derivable_close isArgs trivial
  | paren inner ih =>
      have isInner : (inner.full false).Derivable := ih derivable false
      exact fun isArgs => derivable_close isArgs isInner
  | member obj name ih =>
      intro isArgs
      refine derivable_close isArgs ⟨?_, ih derivable.2 false⟩
      rw [level_full]
      exact derivable.1
  | call func args ihFunc ihArgs =>
      obtain ⟨high, notMember, derivableFunc, derivableArgs⟩ := derivable
      intro isArgs
      refine derivable_close isArgs ⟨?_, ?_, ihFunc derivableFunc false, ?_⟩
      · rw [level_full]
        exact high
      · rw [isMember_full]
        exact notMember
      · rw [isNoArgs_full]
        exact derivableArgs.imp id fun isSome => ihArgs isSome true
  | method obj name args ihObj ihArgs =>
      obtain ⟨high, derivableObj, derivableArgs⟩ := derivable
      intro isArgs
      refine derivable_close isArgs ⟨?_, ihObj derivableObj false, ?_⟩
      · rw [level_full]
        exact high
      · rw [isNoArgs_full]
        exact derivableArgs.imp id fun isSome => ihArgs isSome true
  | noArgs => cases derivable
  | unary op operand ih =>
      exact fun isArgs => derivable_close isArgs ⟨show 10 ≤ 12 by decide, ih derivable.2 false⟩
  | binary op left right ihLeft ihRight =>
      intro isArgs
      refine derivable_close isArgs ⟨?_, ?_, ihLeft derivable.2.2.1 false,
        ihRight derivable.2.2.2 false⟩
      · change op.level ≤ 12
        cases op <;> decide
      · change op.level < 12
        cases op <;> decide
  | cond test yes no ihTest ihYes ihNo =>
      obtain ⟨-, -, -, derivableTest, derivableYes, derivableNo⟩ := derivable
      exact fun isArgs => derivable_close isArgs ⟨show 3 < 12 by decide, show 2 ≤ 12 by decide,
        show 2 ≤ 12 by decide, ihTest derivableTest false, ihYes derivableYes false,
        ihNo derivableNo false⟩
  | assign op target value ihTarget ihValue =>
      obtain ⟨high, -, derivableTarget, derivableValue⟩ := derivable
      intro isArgs
      refine derivable_close isArgs ⟨?_, show 2 ≤ 12 by decide, ihTarget derivableTarget false,
        ihValue derivableValue false⟩
      rw [level_full]
      exact high
  | comma left right ihLeft ihRight =>
      intro isArgs
      have isRight : (right.full false).Derivable := ihRight derivable.2.2 false
      cases isArgs with
      | false => exact ⟨show 2 ≤ 12 by decide, ihLeft derivable.2.1 false, isRight⟩
      | true => exact ⟨show 2 ≤ 12 by decide, ihLeft derivable.2.1 true, isRight⟩

theorem grouped_close {e : Expr} (isArgs : Bool) (grouped : e.Grouped) :
    (close isArgs e).Grouped := by
  cases isArgs <;> exact grouped

/-- With full parentheses, every operand is grouped as it stands. -/
theorem grouped_full (e : Expr) : ∀ isArgs, (e.full isArgs).Grouped := by
  induction e with
  | ident name => exact fun isArgs => grouped_close isArgs trivial
  | number literal => exact fun isArgs => grouped_close isArgs trivial
  | paren inner ih =>
      have isInner : (inner.full false).Grouped := ih false
      exact fun isArgs => grouped_close isArgs isInner
  | member obj name ih =>
      have isObj : (obj.full false).Grouped := ih false
      exact fun isArgs => grouped_close isArgs isObj
  | call func args ihFunc ihArgs =>
      exact fun isArgs => grouped_close isArgs ⟨ihFunc false, ihArgs true⟩
  | method obj name args ihObj ihArgs =>
      exact fun isArgs => grouped_close isArgs ⟨ihObj false, ihArgs true⟩
  | noArgs => exact fun _ => trivial
  | unary op operand ih =>
      have isOperand : (operand.full false).Grouped := ih false
      exact fun isArgs => grouped_close isArgs isOperand
  | binary op left right ihLeft ihRight =>
      exact fun isArgs => grouped_close isArgs
        ⟨fun _ => show 12 ≠ 7 by decide, ihLeft false, ihRight false⟩
  | cond test yes no ihTest ihYes ihNo =>
      exact fun isArgs => grouped_close isArgs ⟨ihTest false, ihYes false, ihNo false⟩
  | assign op target value ihTarget ihValue =>
      exact fun isArgs => grouped_close isArgs
        ⟨.inr (show 8 ≤ 12 by decide), ihTarget false, ihValue false⟩
  | comma left right ihLeft ihRight =>
      intro isArgs
      have isRight : (right.full false).Grouped := ihRight false
      cases isArgs with
      | false => exact ⟨ihLeft false, isRight⟩
      | true => exact ⟨ihLeft true, isRight⟩

/-- Parentheses around an argument do not change its code. -/
theorem extends_close {e : Expr} {less : Option StmtCompiler} {isArgs asArgs : Bool}
    {sc : StmtCompiler} (notComma : e.level ≠ 1) (extend : Extends less (e.emit asArgs sc)) :
    Extends less ((close isArgs e).emit asArgs sc) := by
  cases isArgs with
  | false => exact extend
  | true =>
      cases asArgs with
      | false => exact extend
      | true =>
          rw [emit_true notComma] at extend
          exact extend

/-- Its code is the code of the expression, where there is one. -/
theorem emit_full (e : Expr) : ∀ isArgs asArgs sc, (asArgs = true → isArgs = true) →
    Extends (e.emit asArgs sc) ((e.full isArgs).emit asArgs sc) := by
  induction e with
  | ident | number =>
      intro isArgs asArgs sc _
      refine extends_close (by exact (show 12 ≠ 1 by decide)) ?_
      exact .refl _
  | paren inner ih =>
      intro isArgs asArgs sc _
      refine extends_close (by exact (show 12 ≠ 1 by decide)) ?_
      exact ih false false sc id
  | member obj name ih =>
      intro isArgs asArgs sc _
      refine extends_close (by exact (show 11 ≠ 1 by decide)) ?_
      exact (ih false false sc id).map _
  | call func args ihFunc ihArgs =>
      intro isArgs asArgs sc _
      refine extends_close (by exact (show 11 ≠ 1 by decide)) ?_
      rw [emit, emit, isNumberName_full, isNoArgs_full,
        argc_full]
      split
      · split
        · exact .refl _
        · exact (ihArgs true false sc fun isTrue => by cases isTrue).map _
      · exact (ihFunc false false sc id).bind fun sc => (ihArgs true true sc id).map _
  | method obj name args ihObj ihArgs =>
      intro isArgs asArgs sc _
      refine extends_close (by exact (show 11 ≠ 1 by decide)) ?_
      rw [emit, emit, argc_full]
      exact (ihObj false false sc id).bind fun sc => (ihArgs true true _ id).map _
  | noArgs => exact fun _ _ _ _ => .refl _
  | unary op operand ih =>
      intro isArgs asArgs sc _
      refine extends_close (by exact (show 10 ≠ 1 by decide)) ?_
      exact (ih false false sc id).map _
  | binary op left right ihLeft ihRight =>
      intro isArgs asArgs sc _
      have notComma : op.level ≠ 1 := by cases op <;> decide
      refine extends_close notComma ?_
      exact (ihLeft false false sc id).bind fun sc => (ihRight false false sc id).map _
  | cond test yes no ihTest ihYes ihNo =>
      intro isArgs asArgs sc _
      refine extends_close (by exact (show 3 ≠ 1 by decide)) ?_
      exact (ihTest false false sc id).bind fun sc => (ihYes false false _ id).bind fun chosen =>
        (ihNo false false _ id).map _
  | assign op target value ihTarget ihValue =>
      intro isArgs asArgs sc _
      refine extends_close (by exact (show 2 ≠ 1 by decide)) ?_
      have isValue : ∀ sc, Extends (value.emit false sc)
          ((Expr.paren (value.full false)).emit false sc) := fun sc => ihValue false false sc id
      have notAssign : (Expr.paren (value.full false)).level ≠ 2 := show 12 ≠ 2 by decide
      cases target with
      | ident name =>
          cases op with
          | plain => exact (isValue sc).map _
          | add =>
              by_cases isAssign : value.level = 2
              · have isNone : (Expr.assign .add (.ident name) value).emit asArgs sc = none := by
                  cases found : sc.findLocal name.bytes <;> rw [emit, found, if_pos isAssign]
                rw [isNone]
                exact .none_left _
              · change Extends _ ((Expr.assign .add (.ident name)
                  (.paren (value.full false))).emit asArgs sc)
                cases found : sc.findLocal name.bytes <;>
                  rw [emit, emit, found, if_neg isAssign, if_neg notAssign] <;>
                  exact (isValue _).map _
          | sub =>
              by_cases isAssign : value.level = 2
              · have isNone : (Expr.assign .sub (.ident name) value).emit asArgs sc = none := by
                  rw [emit, if_pos isAssign]
                rw [isNone]
                exact .none_left _
              · change Extends _ ((Expr.assign .sub (.ident name)
                  (.paren (value.full false))).emit asArgs sc)
                rw [emit, emit, if_neg isAssign, if_neg notAssign]
                exact (Extends.refl _).bind fun slot => (isValue _).map _
      | _ => exact .none_left _
  | comma left right ihLeft ihRight =>
      intro isArgs asArgs sc only
      cases isArgs with
      | false =>
          have notArgs : asArgs = false := by
            cases asArgs with
            | false => rfl
            | true => cases only rfl
          subst notArgs
          exact (ihLeft false false sc id).bind fun sc => ihRight false false _ id
      | true =>
          exact (ihLeft true asArgs sc fun _ => rfl).bind fun sc => ihRight false false _ id

/-- The text of an expression that the compiler groups as the grammar does and
the same expression with full parentheses compile to the same code. -/
theorem groups_as_grammar
    {e : Expr} (derivable : e.Derivable) (grouped : e.Grouped) {text fullText : Bytes}
    (spells : Spells e.tokens text) (spellsFull : Spells (e.full false).tokens fullText)
    {sc after : StmtCompiler} (accepted : ∃ fuel, compileFullExpr fuel sc text = some after) :
    ∃ fuel, compileFullExpr fuel sc fullText = some after := by
  have isEmitted := (compiles_iff derivable grouped spells sc after).mp accepted
  exact (compiles_iff (derivable_full derivable false) (grouped_full e false) spellsFull sc
    after).mpr (emit_full e false false sc id after isEmitted)

end Expr

/-! ## Spellings -/

/-- The spelling with one space before each token. -/
def spell : List Token → Bytes
  | [] => []
  | token :: tokens => 32 :: token.bytes ++ spell tokens

/-- Every sequence of tokens is spelled. -/
theorem spells_spell (tokens : List Token) : Spells tokens (spell tokens) := by
  induction tokens with
  | nil => exact .nil fun _ isMem => absurd isMem List.not_mem_nil
  | cons token tokens ih =>
      have isSpaces : ∀ byte ∈ ([32] : Bytes), isSpace byte = true := by
        intro byte isMem
        rw [List.mem_singleton.mp isMem]
        rfl
      refine .cons isSpaces (fun byte isNext => ?_) ih
      have isSpace : byte = 32 := by
        cases tokens with
        | nil => cases isNext
        | cons => exact (Option.some.inj isNext).symm
      subst isSpace
      cases token with
      | ident name => rfl
      | number literal =>
          have notDot : (32 : UInt8) ≠ 46 := by decide
          exact ⟨by decide, fun same => absurd same notDot⟩
      | punct mark =>
          change (32 : UInt8) ∉ mark.extensions
          cases mark <;> decide

/-- A name of one letter. -/
def letter (byte : UInt8) (isStart : isIdentStart byte = true) : Expr :=
  .ident ⟨[byte], by rw [isValidIdentifier, isStart]; rfl⟩

/-- `a - b * c - !d < e && f == g`. -/
def mixedLevels : Expr :=
  .binary .and
    (.binary .lt
      (.binary .sub
        (.binary .sub (letter 97 (by decide))
          (.binary .mul (letter 98 (by decide)) (letter 99 (by decide))))
        (.unary .not (letter 100 (by decide))))
      (letter 101 (by decide)))
    (.binary .eq (letter 102 (by decide)) (letter 103 (by decide)))

/-- `a == b < c`. -/
def bareRelational : Expr :=
  .binary .eq (letter 97 (by decide))
    (.binary .lt (letter 98 (by decide)) (letter 99 (by decide)))

/-- What a tree's text compiles to. -/
def codeOf (e : Expr) : StmtCompiler :=
  (compileFullExpr 40 (.new (.new 1000)) (spell e.tokens)).getD (.new (.new 0))

theorem derivable_mixedLevels : mixedLevels.Derivable := by
  simp [mixedLevels, letter, Expr.Derivable, Expr.level, BinaryOp.level]

theorem grouped_mixedLevels : mixedLevels.Grouped := by
  simp [mixedLevels, letter, Expr.Grouped, Expr.level, BinaryOp.level]

theorem groups_as_grammar_mixedLevels :
    ∃ fuel, compileFullExpr fuel (.new (.new 1000)) (spell (mixedLevels.full false).tokens) =
      some (codeOf mixedLevels) :=
  Expr.groups_as_grammar derivable_mixedLevels grouped_mixedLevels (spells_spell _)
    (spells_spell _) ⟨40, rfl⟩

/-- An equality takes the bare left operand of a relation for its own. -/
theorem not_always_groups_as_grammar :
    ¬∀ (e : Expr) (text fullText : Bytes) (sc after : StmtCompiler), e.Derivable →
      Spells e.tokens text → Spells (e.full false).tokens fullText →
      (∃ fuel, compileFullExpr fuel sc text = some after) →
      ∃ fuel, compileFullExpr fuel sc fullText = some after := by
  intro always
  obtain ⟨fuel, isFull⟩ := always bareRelational _ _ (.new (.new 1000)) (codeOf bareRelational)
    ⟨show 6 ≤ 12 by decide, show 6 < 7 by decide, trivial,
      ⟨show 7 ≤ 12 by decide, show 7 < 12 by decide, trivial, trivial⟩⟩
    (spells_spell _) (spells_spell _) ⟨40, rfl⟩
  have settles := Extends.settles (fun fuel => compileFullExpr_extends fuel _ _) isFull
  have isOther : compileFullExpr 40 (.new (.new 1000)) (spell (bareRelational.full false).tokens) =
      some (codeOf (bareRelational.full false)) := rfl
  have same := (Extends.settles (fun fuel => compileFullExpr_extends fuel _ _) isOther).unique
    settles
  have sameCode := congrArg (fun sc => sc.func.code) (Option.some.inj same)
  revert sameCode
  decide

end Script
end MuonJs
