import MuonJs.Script.Heights
import MuonJs.Script.Vm

/-!
# Compiled bytecode is well formed

Every position of compiled code has a stack height on which all paths agree, and
its operands are in range.  So a run finds on the stack what it takes from there,
whatever the host does, as long as strings stay on the heap.
-/

namespace MuonJs
namespace Script

open Cache (Bytes F64 asBytes)
open StackCode StmtCompiler

/-! ## Compiled functions -/

/-- What `compile_stmts` or `compile_program` makes in a context. -/
def Compiled (ctx : Context) (sc : StmtCompiler) : Prop :=
  (∃ fuel params stmts,
    compileStmts fuel ((StmtCompiler.new ctx).addParams params) stmts = some sc) ∨
      ∃ fuel src, compileProgram fuel ctx src = some sc

theorem addParams_spec (sc : StmtCompiler) (names : List Bytes) :
    Grows sc (sc.addParams names) ∧ (sc.addParams names).func.code = sc.func.code := by
  induction names generalizing sc with
  | nil => exact ⟨.refl sc, rfl⟩
  | cons name names ih =>
      obtain ⟨grows, sameCode, -⟩ := ensureLocal_spec sc name
      obtain ⟨later, laterCode⟩ := ih (sc.ensureLocal name).2
      exact ⟨grows.trans later, laterCode.trans sameCode⟩

theorem compileStmts_emits
    {fuel : ℕ} {sc sc' : StmtCompiler} {stmts : List Bytes}
    (compiled : compileStmts fuel sc stmts = some sc') : Emits 0 0 sc sc' := by
  obtain ⟨sc₁, isBody, rfl⟩ := Option.map_eq_some_iff.mp compiled
  exact ((stmtEmits fuel).body isBody).trans
    ((emitOn_const_emits (addUndefinedConst_made sc₁) 0).trans (return_emits _))

theorem compileProgram_emits
    {fuel : ℕ} {ctx : Context} {sc : StmtCompiler} {src : Bytes}
    (compiled : compileProgram fuel ctx src = some sc) : Emits 0 0 (.new ctx) sc := by
  unfold compileProgram at compiled
  dsimp only at compiled
  split at compiled
  · cases compiled
    obtain ⟨keeps, -⟩ := newString_spec ctx
      (((trim src).take ((trim src).length - 1)).drop 1)
    have literal : Emits 0 1 (.new ctx) (emitOn .const (StmtCompiler.pushConst
        ⟨(ctx.newString (((trim src).take ((trim src).length - 1)).drop 1)).2, .new⟩
        (ctx.newString (((trim src).take ((trim src).length - 1)).drop 1)).1)) :=
      emitOn_const_emits (pushConst_made (allocation_grows keeps) rfl
        fun _ => trivial : Made (fun _ _ => True) (.new ctx) _) 0
    exact literal.trans (return_emits _)
  · obtain ⟨sc₁, isExpr, rfl⟩ := Option.map_eq_some_iff.mp compiled
    exact (compileFullExpr_emits isExpr).trans (return_emits sc₁)

/-- A compiled function is made from an empty one. -/
theorem Compiled.emits {ctx : Context} {sc : StmtCompiler} (compiled : Compiled ctx sc) :
    Emits 0 0 (.new ctx) sc := by
  rcases compiled with ⟨fuel, params, stmts, compiled⟩ | ⟨fuel, src, compiled⟩
  · obtain ⟨grows, sameCode⟩ := addParams_spec (.new ctx) params
    exact (Grows.emits grows sameCode 0).trans (compileStmts_emits compiled)
  · exact compileProgram_emits compiled

/-- The heights fit the code, and the operands are in range. -/
structure WellTyped (sc : StmtCompiler) (height : ℕ → ℕ) : Prop where
  start : height 0 = 0
  fits : Fits 0 sc.func.code.length 0 (sc.func.code.map Instruction.shape) height
  inRange : ∀ ins ∈ sc.func.code, ins.InRange sc

theorem Compiled.wellTyped
    {ctx : Context} {sc : StmtCompiler} (compiled : Compiled ctx sc)
    (inUse : ctx.CellsInUse) (small : sc.func.Small) : ∃ height, WellTyped sc height := by
  obtain ⟨added, isCode, raises, inRange⟩ := compiled.emits.code
  obtain ⟨height, isStart, -, fits⟩ := raises small 0
  rw [show (StmtCompiler.new ctx).func.code = [] from rfl, List.nil_append] at isCode
  subst isCode
  rw [List.length_map] at fits
  rw [show (StmtCompiler.new ctx).func.code.length = 0 from rfl] at fits isStart
  rw [Nat.zero_add] at fits
  exact ⟨height, isStart, fits, inRange inUse small⟩

/-! ## Hosts -/

/-- The host leaves strings on the heap. -/
structure Host.KeepsStrings (host : Host) : Prop where
  unary : ∀ op ctx value, Context.Keeps ctx (host.unary op ctx value).2
  binary : ∀ op ctx left right, Context.Keeps ctx (host.binary op ctx left right).2
  setProp : ∀ ctx obj key value, Context.Keeps ctx (host.setProp ctx obj key value)
  increment : ∀ ctx value amount, Context.Keeps ctx (host.increment ctx value amount).2
  toNumber : ∀ ctx value, Context.Keeps ctx (host.toNumber ctx value).2
  toString : ∀ ctx value, Context.Keeps ctx (host.toString ctx value).2
  evalValue : ∀ ctx name, Context.Keeps ctx (host.evalValue ctx name).2
  callCFunction : ∀ ctx func this args, Context.Keeps ctx (host.callCFunction ctx func this args).2
  callFunctionValue : ∀ ctx func this args,
    Context.Keeps ctx (host.callFunctionValue ctx func this args).2

section Hosts

variable {host : Host} (keeps : host.KeepsStrings)

include keeps

theorem valueToAtom_keeps (ctx : Context) (value : JSValue) :
    ctx.Keeps (ctx.valueToAtom host value).2 := by
  unfold Context.valueToAtom
  dsimp only
  cases ctx.stringBytes value with
  | some bytes =>
      dsimp only
      split
      · exact .refl ctx
      · exact Context.internString_keeps ctx _
  | none =>
      dsimp only
      split
      · exact keeps.toString ctx value
      · exact (keeps.toString ctx value).trans (Context.internString_keeps _ _)

theorem loadGlobal_keeps (ctx : Context) (name : JSValue) (atom : UInt32) :
    ctx.Keeps (ctx.loadGlobal host name atom).2 := by
  unfold Context.loadGlobal
  dsimp only
  split
  · split
    · exact .refl ctx
    · rename_i bytes _
      have isChecked := Context.hasPropertyStr_keeps ctx host.globalObject bytes
      split
      · exact isChecked
      · exact isChecked.trans (keeps.evalValue _ bytes)
  · exact .refl ctx

theorem invoke_keeps
    (ctx : Context) (isMethod : Bool) (func this : JSValue) (args : List JSValue) :
    ctx.Keeps (ctx.invoke host isMethod func this args).2 := by
  unfold Context.invoke
  split
  · exact keeps.callCFunction ctx func this args
  · split
    · split
      · split
        · exact .refl ctx
        · exact keeps.toNumber ctx _
      · exact keeps.callFunctionValue ctx func this _
    · exact keeps.callFunctionValue ctx func this _

end Hosts

/-! ## Steps -/

/-- The name of the global that an instruction uses is missing: there was no
memory for its string when it was compiled, or there is none for its atom. -/
def NameMissing (ctx : Context) (func : BytecodeFunction) (ins : Instruction) : Prop :=
  ∃ value, func.constants[ins.a.toNat]? = some value ∧
    (value = .exception ∨ ∃ name, ctx.stringBytes value = some name ∧
      ∀ atom, (ctx.internString name).1 = some atom → ¬0 < atom.toInt32)

/-- What an instruction may lead to: a state that its shape allows, or an error
that is none of the stack, the constants and, unless it is missing, the name. -/
def Outcome.Obeys (func : BytecodeFunction) (state : VmState) (ins : Instruction) :
    Outcome → Prop
  | .next after =>
      after.pc ∈ ins.shape.flow.targets state.pc ∧
        after.stack.length = state.stack.length - ins.shape.pops + ins.shape.pushes ∧
        after.locals.length = state.locals.length ∧ state.ctx.Keeps after.ctx
  | .returned _ _ => True
  | .thrown error _ =>
      error ≠ .stackUnderflow ∧ error ≠ .stackUnderflowInCall ∧
        error ≠ .stackUnderflowInCallMethod ∧ error ≠ .constOutOfRange ∧
        (error = .globalNameNotString → NameMissing state.ctx func ins)

section Steps

variable {host : Host} {func : BytecodeFunction} {state : VmState} {ins : Instruction}
  {pops pushes : ℕ} (isShape : ins.shape = ⟨pops, pushes, .next⟩)

include isShape

/-- Going on with a stack of the right size. -/
theorem goOn_obeys
    {locals stack : List JSValue} {ctx : Context}
    (isSize : stack.length = state.stack.length - pops + pushes)
    (sameLocals : locals.length = state.locals.length) (keeps : state.ctx.Keeps ctx) :
    ({ state with locals := locals }.goOn stack ctx).Obeys func state ins := by
  refine ⟨?_, ?_, sameLocals, keeps⟩
  · rw [isShape]
    exact List.mem_singleton.mpr rfl
  · rw [isShape]
    exact isSize

theorem pushComputed_obeys
    {stack : List JSValue} {computed : Computed × Context}
    (isSize : stack.length + 1 = state.stack.length - pops + pushes)
    (keeps : state.ctx.Keeps computed.2) :
    (state.pushComputed stack computed).Obeys func state ins := by
  unfold VmState.pushComputed
  split
  · exact goOn_obeys isShape isSize rfl keeps
  · trivial
  · exact ⟨nofun, nofun, nofun, nofun, nofun⟩

end Steps

section Exec

variable {host : Host} (keeps : host.KeepsStrings) {func : BytecodeFunction} {state : VmState}

omit keeps in
/-- With a value on the stack, nothing is missing there. -/
theorem pop_obeys
    {ins : Instruction} {go : JSValue → List JSValue → Outcome}
    (enough : 1 ≤ state.stack.length)
    (goes : ∀ value stack, state.stack = value :: stack →
      (go value stack).Obeys func state ins) : (state.pop go).Obeys func state ins := by
  unfold VmState.pop
  cases isStack : state.stack with
  | nil =>
      rw [isStack] at enough
      cases enough
  | cons value stack => exact goes value stack isStack

theorem pop₂_obeys
    {ins : Instruction} {go : JSValue → JSValue → List JSValue → Outcome}
    (enough : 2 ≤ state.stack.length)
    (goes : ∀ left right stack, state.stack = right :: left :: stack →
      (go left right stack).Obeys func state ins) : (state.pop₂ go).Obeys func state ins := by
  unfold VmState.pop₂
  split
  · rename_i right left stack isStack
    exact goes left right stack isStack
  · rename_i isShort
    obtain ⟨right, rest, isStack⟩ := List.exists_cons_of_length_pos
      (show 0 < state.stack.length by omega)
    rw [isStack, List.length_cons] at enough
    obtain ⟨left, stack, isRest⟩ := List.exists_cons_of_length_pos
      (show 0 < rest.length by omega)
    exact absurd (isStack.trans (congrArg _ isRest)) (isShort right left stack)

/-- A branch goes to its target or to the next instruction. -/
theorem branch_obeys
    {ins : Instruction} {stack : List JSValue} {isTaken : Bool}
    (isShape : ins.shape = ⟨1, 0, .branch ins.a.toNat⟩)
    (isSize : stack.length = state.stack.length - 1) :
    (state.branch stack ins.a isTaken).Obeys func state ins := by
  refine ⟨?_, ?_, rfl, .refl _⟩
  · rw [isShape]
    cases isTaken
    · exact List.mem_cons_of_mem _ (List.mem_singleton.mpr rfl)
    · exact List.mem_cons_self
  · rw [isShape]
    exact isSize

include keeps

theorem incLocal_obeys
    {ins : Instruction} (isShape : ins.shape = ⟨0, 0, .next⟩) :
    (state.incLocal host ins.a ins.b).Obeys func state ins := by
  unfold VmState.incLocal
  split
  · exact goOn_obeys isShape rfl rfl (.refl _)
  · exact goOn_obeys isShape rfl (List.length_set ..) (.refl _)
  · rename_i old _ _
    have kept := keeps.increment state.ctx old ins.b.toInt32
    split
    · rename_i isComputed
      rw [isComputed] at kept
      exact goOn_obeys isShape rfl (List.length_set ..) kept
    · trivial
    · exact ⟨nofun, nofun, nofun, nofun, nofun⟩

/-- The name of a global leads to an atom, or it is missing. -/
theorem withGlobal_obeys
    {ins : Instruction} {go : JSValue → UInt32 → Context → Outcome}
    (isName : ∃ value, func.constants[ins.a.toNat]? = some value ∧ state.ctx.IsName value)
    (goes : ∀ name atom ctx, state.ctx.Keeps ctx → (go name atom ctx).Obeys func state ins) :
    (state.withGlobal host func ins.a go).Obeys func state ins := by
  obtain ⟨value, isConst, isName⟩ := isName
  have kept := valueToAtom_keeps keeps state.ctx value
  unfold VmState.withGlobal
  rw [isConst]
  dsimp only
  cases isAtom : state.ctx.valueToAtom host value with
  | mk found ctx =>
      rw [isAtom] at kept
      cases found with
      | some atom => exact goes value atom ctx kept
      | none =>
          refine ⟨nofun, nofun, nofun, nofun, fun _ => ⟨value, isConst, ?_⟩⟩
          rcases isName with isException | ⟨name, isText⟩
          · exact .inl isException
          · refine .inr ⟨name, isText, fun atom isInterned isPositive => ?_⟩
            unfold Context.valueToAtom at isAtom
            rw [isText] at isAtom
            dsimp only at isAtom
            rw [isText] at isAtom
            have isNone := congrArg Prod.fst isAtom
            dsimp only at isNone
            rw [isInterned, Option.filter_some, if_pos (decide_eq_true isPositive)] at isNone
            cases isNone

/-- The outcome of a call, when the function and its arguments are on the stack. -/
theorem invoke_obeys
    {ins : Instruction} {pops : ℕ} (isShape : ins.shape = ⟨pops, 1, .next⟩)
    (isMethod : Bool) (called this : JSValue) (args : List JSValue) {stack : List JSValue}
    (isSize : stack.length + 1 = state.stack.length - pops + 1) :
    (match state.ctx.invoke host isMethod called this args with
      | (some result, ctx) => state.pushComputed stack (result, ctx)
      | (none, ctx) => .thrown .notAFunction ctx).Obeys func state ins := by
  have kept := invoke_keeps keeps state.ctx isMethod called this args
  split
  · rename_i isResult
    rw [isResult] at kept
    exact pushComputed_obeys isShape isSize kept
  · exact ⟨nofun, nofun, nofun, nofun, nofun⟩

theorem callStep_obeys
    {ins : Instruction} {isMethod : Bool}
    (isShape : ins.shape = ⟨ins.a.toNat + (if isMethod then 2 else 1), 1, .next⟩)
    (enough : ins.a.toNat + (if isMethod then 2 else 1) ≤ state.stack.length) :
    (state.callStep host isMethod ins.a).Obeys func state ins := by
  have allArgs : ¬(state.stack.take ins.a.toNat).reverse.length < ins.a.toNat := by
    rw [List.length_reverse, List.length_take]
    split at enough <;> omega
  have dropSize : (state.stack.drop ins.a.toNat).length = state.stack.length - ins.a.toNat :=
    List.length_drop
  unfold VmState.callStep
  dsimp only
  cases isMethod with
  | false =>
      rw [if_neg Bool.false_ne_true] at isShape enough
      cases isDrop : state.stack.drop ins.a.toNat with
      | nil =>
          rw [isDrop, List.length_nil] at dropSize
          omega
      | cons called stack =>
          rw [isDrop, List.length_cons] at dropSize
          dsimp only
          rw [if_neg allArgs]
          exact invoke_obeys keeps isShape false called _ _ (by omega)
  | true =>
      rw [if_pos rfl] at isShape enough
      cases isDrop : state.stack.drop ins.a.toNat with
      | nil =>
          rw [isDrop, List.length_nil] at dropSize
          omega
      | cons called rest =>
          cases rest with
          | nil =>
              rw [isDrop, List.length_singleton] at dropSize
              omega
          | cons this stack =>
              rw [isDrop, List.length_cons, List.length_cons] at dropSize
              dsimp only
              rw [if_neg allArgs]
              exact invoke_obeys keeps isShape true called this _ (by omega)

omit keeps in
theorem binary_obeys
    {ins : Instruction} (isShape : ins.shape = ⟨2, 1, .next⟩)
    (enough : 2 ≤ state.stack.length) {compute : JSValue → JSValue → Computed × Context}
    (kept : ∀ left right, state.ctx.Keeps (compute left right).2) :
    (state.pop₂ fun left right stack =>
      state.pushComputed stack (compute left right)).Obeys func state ins := by
  refine pop₂_obeys enough fun left right stack isStack => ?_
  refine pushComputed_obeys isShape ?_ (kept left right)
  rw [isStack]
  rfl

theorem unary_obeys
    {ins : Instruction} (isShape : ins.shape = ⟨1, 1, .next⟩)
    (enough : 1 ≤ state.stack.length) (op : OpCode) :
    (state.pop fun value stack =>
      state.pushComputed stack (host.unary op state.ctx value)).Obeys func state ins := by
  refine pop_obeys enough fun value stack isStack => ?_
  refine pushComputed_obeys isShape ?_ (keeps.unary op state.ctx value)
  rw [isStack]
  rfl

/-- Every instruction obeys its shape, when enough values are on the stack and
its operand is in range. -/
theorem exec_obeys
    (ins : Instruction) (enough : ins.shape.pops ≤ state.stack.length)
    (inRange : ins.InRange ⟨state.ctx, func⟩) :
    (ins.exec host func state).Obeys func state ins := by
  obtain ⟨op, a, b⟩ := ins
  cases op with
  | nop => exact goOn_obeys rfl rfl rfl (.refl _)
  | const =>
      unfold Instruction.exec
      dsimp only
      rw [List.getElem?_eq_getElem (by exact inRange)]
      exact goOn_obeys rfl rfl rfl (.refl _)
  | loadLocal => exact goOn_obeys rfl rfl rfl (.refl _)
  | storeLocal =>
      refine pop_obeys enough fun value stack isStack => ?_
      refine goOn_obeys rfl ?_ (List.length_set ..) (.refl _)
      rw [isStack]
      rfl
  | incLocal => exact incLocal_obeys keeps rfl
  | loadGlobal =>
      refine withGlobal_obeys keeps inRange fun name atom ctx kept => ?_
      exact goOn_obeys rfl rfl rfl (kept.trans (loadGlobal_keeps keeps ctx name atom))
  | storeGlobal =>
      refine withGlobal_obeys keeps inRange fun name atom ctx kept => ?_
      unfold VmState.pop
      cases isStack : state.stack with
      | nil =>
          rw [isStack] at enough
          cases enough
      | cons value stack =>
          have stored := Context.setPropertyAtomId_keeps ctx host.globalObject atom value
          dsimp only
          split
          · rename_i isSet
            rw [isSet] at stored
            refine goOn_obeys rfl ?_ rfl (kept.trans stored)
            rw [isStack]
            rfl
          · exact ⟨nofun, nofun, nofun, nofun, nofun⟩
  | add | sub | mul | div | mod | eq | neq | strictEq | strictNeq | lt | gt | le | ge
  | getProp | getElem | concat | bitAnd | bitOr | bitXor | shl | shr | uShr =>
      exact binary_obeys rfl enough fun left right => keeps.binary _ _ left right
  | not =>
      refine pop_obeys enough fun value stack isStack => ?_
      refine goOn_obeys rfl ?_ rfl (.refl _)
      rw [isStack]
      rfl
  | and | or =>
      refine pop₂_obeys enough fun left right stack isStack => ?_
      refine goOn_obeys rfl ?_ rfl (.refl _)
      rw [isStack]
      rfl
  | drop | pop =>
      refine goOn_obeys rfl ?_ rfl (.refl _)
      exact List.length_tail
  | dup =>
      refine pop_obeys enough fun value stack isStack => ?_
      refine goOn_obeys rfl ?_ rfl (.refl _)
      rw [isStack]
      rfl
  | jump => exact ⟨List.mem_singleton.mpr rfl, rfl, rfl, .refl _⟩
  | jumpIfFalse | jumpIfTrue =>
      refine pop_obeys enough fun value stack isStack => ?_
      refine branch_obeys rfl ?_
      rw [isStack]
      rfl
  | call => exact callStep_obeys keeps rfl enough
  | callMethod => exact callStep_obeys keeps rfl enough
  | setProp =>
      unfold Instruction.exec
      dsimp only
      split
      · rename_i value key obj stack isStack
        refine goOn_obeys rfl ?_ rfl (keeps.setProp state.ctx obj key value)
        rw [isStack]
        rfl
      · rename_i isShort
        match isStack : state.stack with
        | value :: key :: obj :: stack => exact absurd isStack (isShort value key obj stack)
        | [] | [_] | [_, _] =>
            rw [isStack] at enough
            change 3 ≤ _ at enough
            simp at enough
  | toNumber | typeof | neg | bitNot => exact unary_obeys keeps rfl enough _
  | «return» => trivial

end Exec

/-! ## Runs -/

/-- What holds in every state of a run: the position is in the code or at its
end, and the stack has the height of the position. -/
structure VmState.AtHeight (state : VmState) (sc : StmtCompiler) (height : ℕ → ℕ) : Prop where
  pc : state.pc ≤ sc.func.code.length
  stack : state.stack.length = height state.pc
  locals : state.locals.length = sc.func.locals.length
  keeps : sc.ctx.Keeps state.ctx

section Runs

variable {host : Host} (keeps : host.KeepsStrings) {sc : StmtCompiler} {height : ℕ → ℕ}
  (typed : WellTyped sc height) (inUse : sc.ctx.CellsInUse)

include keeps typed inUse

/-- A step obeys the shape of the instruction at the position. -/
theorem step_obeys
    {state : VmState} (atHeight : state.AtHeight sc height) {ins : Instruction}
    (isIns : sc.func.code[state.pc]? = some ins) :
    (state.step host sc.func).Obeys sc.func state ins := by
  obtain ⟨inCode, isAt⟩ := List.getElem?_eq_some_iff.mp isIns
  have isShape : (sc.func.code.map Instruction.shape)[state.pc]? = some ins.shape := by
    rw [List.getElem?_map, isIns]
    rfl
  have enough := (typed.fits state.pc ins.shape isShape).1
  rw [Nat.zero_add, ← atHeight.stack] at enough
  have inRange := typed.inRange ins (List.mem_of_getElem? isIns)
  have grows : Grows sc ⟨state.ctx, sc.func⟩ :=
    ⟨atHeight.keeps, List.prefix_rfl, List.prefix_rfl⟩
  unfold VmState.step
  rw [isIns]
  exact exec_obeys keeps ins enough (grows.inRange inUse inRange)

/-- One step keeps the height. -/
theorem step_atHeight
    {state after : VmState} (atHeight : state.AtHeight sc height)
    (isStep : state.step host sc.func = .next after) : after.AtHeight sc height := by
  cases isIns : sc.func.code[state.pc]? with
  | none =>
      unfold VmState.step at isStep
      rw [isIns] at isStep
      cases isStep
  | some ins =>
      have obeys := step_obeys keeps typed inUse atHeight isIns
      rw [isStep] at obeys
      obtain ⟨isTarget, isSize, sameLocals, kept⟩ := obeys
      have follows : Follows (sc.func.code.map Instruction.shape) state.pc state.stack.length
          after.pc after.stack.length := by
        refine ⟨ins.shape, ?_, isTarget, isSize⟩
        rw [List.getElem?_map, isIns]
        rfl
      have fits := typed.fits
      rw [← sc.func.code.length_map (f := Instruction.shape)] at fits
      obtain ⟨below, isHeight⟩ := fits.follows atHeight.stack follows
      rw [List.length_map] at below
      exact ⟨below, isHeight, sameLocals.trans atHeight.locals, atHeight.keeps.trans kept⟩

/-- Every state of a run is at its height. -/
theorem run_atHeight
    {ctx : Context} (kept : sc.ctx.Keeps ctx) {params : List JSValue} {state : VmState}
    (run : VmState.Runs host sc.func (.start sc.func ctx params) state) :
    state.AtHeight sc height := by
  induction run with
  | refl =>
      refine ⟨Nat.zero_le _, typed.start.symm, ?_, kept⟩
      change ((params ++ List.replicate _ _).take _).length = _
      rw [List.length_take, List.length_append, List.length_replicate]
      omega
  | tail _ isStep ih => exact step_atHeight keeps typed inUse ih isStep

end Runs

/-- Compiled bytecode is well formed: the code of an expression raises the stack
by one and that of a statement leaves it, every position of a compiled function
has a height on which all paths agree, with jump targets, constants and locals in
range, and in every run the stack has the height of the position, no operand is
missing from it, no constant is out of range, and a global lacks its name only
where the memory for it is exhausted. -/
theorem compiled_wellFormed :
    (∀ fuel sc src sc', compileFullExpr fuel sc src = some sc' → Emits 0 1 sc sc') ∧
    (∀ fuel sc stmt sc', compileStmt fuel sc stmt = some sc' → Emits 0 0 sc sc') ∧
    ∀ (ctx : Context) (sc : StmtCompiler), ctx.CellsInUse → Compiled ctx sc →
      sc.func.Small →
      ∃ height, WellTyped sc height ∧
        ∀ (host : Host) (later : Context) (params : List JSValue) (state : VmState),
          host.KeepsStrings → sc.ctx.Keeps later →
          VmState.Runs host sc.func (.start sc.func later params) state →
          state.pc ≤ sc.func.code.length ∧ state.stack.length = height state.pc ∧
            ∀ ins, sc.func.code[state.pc]? = some ins →
              (state.step host sc.func).Obeys sc.func state ins := by
  refine ⟨fun _ _ _ _ compiled => compileFullExpr_emits compiled,
    fun fuel _ _ _ compiled => (stmtEmits fuel).stmt compiled, ?_⟩
  intro ctx sc inUse compiled small
  have laterInUse := compiled.emits.grows.ctx.inUse inUse
  obtain ⟨height, typed⟩ := compiled.wellTyped inUse small
  refine ⟨height, typed, ?_⟩
  intro host later params state keeps kept run
  have atHeight := run_atHeight keeps typed laterInUse kept run
  exact ⟨atHeight.pc, atHeight.stack,
    fun ins isIns => step_obeys keeps typed laterInUse atHeight isIns⟩

/-- A host that changes nothing and computes nothing. -/
def Host.inert : Host where
  globalObject := .null
  unary _ ctx _ := (.value .undefined, ctx)
  binary _ ctx _ _ := (.value .undefined, ctx)
  setProp ctx _ _ _ := ctx
  increment ctx _ _ := (.value .undefined, ctx)
  toNumber ctx _ := (.value .undefined, ctx)
  toString ctx _ := (.undefined, ctx)
  evalValue ctx _ := (none, ctx)
  callCFunction ctx _ _ _ := (.undefined, ctx)
  callFunctionValue ctx _ _ _ := (none, ctx)

theorem Host.inert_keepsStrings : Host.inert.KeepsStrings where
  unary _ ctx _ := .refl ctx
  binary _ ctx _ _ := .refl ctx
  setProp ctx _ _ _ := .refl ctx
  increment ctx _ _ := .refl ctx
  toNumber ctx _ := .refl ctx
  toString ctx _ := .refl ctx
  evalValue ctx _ := .refl ctx
  callCFunction ctx _ _ _ := .refl ctx
  callFunctionValue ctx _ _ _ := .refl ctx

/-- `for(var i=1;i;i--){}`. -/
def countdownText : Bytes :=
  [102, 111, 114, 40, 118, 97, 114, 32, 105, 61, 49, 59, 105, 59, 105, 45, 45, 41, 123, 125]

/-- A loop over a local, compiled. -/
def countdown : StmtCompiler :=
  (compileStmts 30 (.new (.new 100)) [countdownText]).getD (.new (.new 0))

/-- A run of it once around the loop, back to the condition. -/
theorem countdown_run :
    VmState.Runs .inert countdown.func (.start countdown.func countdown.ctx [])
      ⟨3, [], [.int 0], countdown.ctx⟩ :=
  .tail (.tail (.tail (.tail (.tail (.tail (.single rfl) rfl) rfl) rfl) rfl) rfl) rfl

theorem compiled_wellFormed_countdown :
    ∃ height, WellTyped countdown height ∧
      ([] : List JSValue).length = height 3 ∧
      (VmState.step .inert countdown.func ⟨3, [], [.int 0], countdown.ctx⟩).Obeys countdown.func
        ⟨3, [], [.int 0], countdown.ctx⟩ ⟨.loadLocal, 0, 0⟩ := by
  obtain ⟨height, typed, runs⟩ := compiled_wellFormed.2.2 (.new 100) countdown (fun _ _ => rfl)
    (.inl ⟨30, [], [countdownText], rfl⟩)
    ⟨by decide +kernel, by decide +kernel, by decide +kernel⟩
  obtain ⟨-, atHeight, obeys⟩ := runs .inert countdown.ctx [] _ Host.inert_keepsStrings (.refl _)
    countdown_run
  exact ⟨height, typed, atHeight, obeys _ rfl⟩

/-- The script `x`, compiled in a context without any memory. -/
def nameless : StmtCompiler :=
  (compileStmts 30 (.new (.new 0)) [[120]]).getD (.new (.new 0))

theorem nameless_compiled : Compiled (.new 0) nameless :=
  .inl ⟨30, [], [[120]], rfl⟩

theorem nameless_small : nameless.func.Small :=
  ⟨by decide +kernel, by decide +kernel, by decide +kernel⟩

/-- Without memory for its name, a global is not found by a compiled script. -/
theorem compiled_without_memory :
    ¬∀ (ctx : Context) (sc : StmtCompiler), ctx.CellsInUse → Compiled ctx sc →
      sc.func.Small →
      ∀ (host : Host) (later : Context) (params : List JSValue) (state : VmState),
        host.KeepsStrings → sc.ctx.Keeps later →
        VmState.Runs host sc.func (.start sc.func later params) state →
        ∀ after, state.step host sc.func ≠ .thrown .globalNameNotString after := by
  intro never
  exact never (.new 0) nameless (fun _ _ => rfl) nameless_compiled nameless_small .inert
    nameless.ctx [] _ Host.inert_keepsStrings (.refl _) .refl nameless.ctx rfl

end Script
end MuonJs
