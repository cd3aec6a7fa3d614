import MuonJs.Script.WellFormed

/-!
# Exceptions of called functions

The machine treats the exception that a called function yields like any other
value: it is pushed, and the run goes on with the next instruction.  The script
stops at a failing call exactly where that instruction returns.
-/

namespace MuonJs
namespace Script
namespace VmState

/-- What the function of a call yields; nothing where the instruction calls none. -/
def called (host : Host) (state : VmState) (ins : Instruction) :
    Option (Option Computed × Context) :=
  let args := (state.stack.take ins.a.toNat).reverse
  match ins.op, state.stack.drop ins.a.toNat with
  | .call, func :: _ => some (state.ctx.invoke host false func host.globalObject args)
  | .callMethod, func :: this :: _ => some (state.ctx.invoke host true func this args)
  | _, _ => none

/-- The function that is called in a state yields an exception. -/
def CallFails (host : Host) (func : BytecodeFunction) (state : VmState) : Prop :=
  ∃ ins ctx, func.code[state.pc]? = some ins ∧
    state.called host ins = some (some (.value .exception), ctx)

/-- The instructions that a run executes. -/
def executed (host : Host) (func : BytecodeFunction) : ℕ → VmState → List Instruction
  | 0, _ => []
  | fuel + 1, state =>
      match func.code[state.pc]?, state.step host func with
      | none, _ => []
      | some ins, .next after => ins :: executed host func fuel after
      | some ins, _ => [ins]

/-- The run returns an exception, and after the instruction of the state it
executes none but the one that returns. -/
def Stops (host : Host) (func : BytecodeFunction) (state : VmState) : Prop :=
  (∃ fuel ctx, runModuleWithLocals host func fuel state = some (.returned .exception ctx)) ∧
    ∀ fuel, ∀ ins ∈ (state.executed host func fuel).tail, ins.op = .return

/-- The next instruction returns. -/
def ReturnsNext (func : BytecodeFunction) (state : VmState) : Prop :=
  ∃ ins, func.code[state.pc + 1]? = some ins ∧ ins.op = .return

section Steps

variable {host : Host} {func : BytecodeFunction} {state after : VmState} {ins : Instruction}

theorem executed_next
    (isIns : func.code[state.pc]? = some ins) (isStep : state.step host func = .next after)
    (fuel : ℕ) :
    state.executed host func (fuel + 1) = ins :: after.executed host func fuel := by
  rw [executed, isIns, isStep]

theorem runModuleWithLocals_next
    (isStep : state.step host func = .next after) (fuel : ℕ) :
    runModuleWithLocals host func (fuel + 1) state =
      runModuleWithLocals host func fuel after := by
  rw [runModuleWithLocals, isStep]

/-- Arguments below which there is a function are complete. -/
theorem not_short
    {argc : ℕ} {stack rest : List JSValue} {func : JSValue}
    (isRest : stack.drop argc = func :: rest) : ¬(stack.take argc).reverse.length < argc := by
  have deep : 0 < (stack.drop argc).length := by
    rw [isRest]
    exact Nat.succ_pos _
  rw [List.length_drop] at deep
  rw [List.length_reverse, List.length_take]
  omega

/-- A call whose function yields a value pushes it and goes on. -/
theorem exec_of_called
    (func : BytecodeFunction) {value : JSValue} {ctx : Context}
    (isCalled : state.called host ins = some (some (.value value), ctx)) :
    ∃ stack, ins.exec host func state = state.goOn (value :: stack) ctx := by
  unfold called at isCalled
  dsimp only at isCalled
  split at isCalled
  · rename_i called stack isCall isStack
    refine ⟨stack, ?_⟩
    rw [Instruction.exec, isCall]
    dsimp only
    unfold callStep
    rw [isStack]
    dsimp only
    rw [if_neg (not_short isStack), Option.some.inj isCalled]
    rfl
  · rename_i called this stack isCall isStack
    refine ⟨stack, ?_⟩
    rw [Instruction.exec, isCall]
    dsimp only
    unfold callStep
    rw [isStack]
    dsimp only
    rw [if_neg (not_short isStack), Option.some.inj isCalled]
    rfl
  · cases isCalled

/-- After a failing call the machine is at the next instruction, with the
exception on the stack. -/
theorem CallFails.step
    (fails : state.CallFails host func) :
    ∃ ins after, func.code[state.pc]? = some ins ∧ state.step host func = .next after ∧
      after.pc = state.pc + 1 ∧ after.stack.head? = some .exception := by
  obtain ⟨ins, ctx, isIns, isCalled⟩ := fails
  obtain ⟨stack, isExec⟩ := exec_of_called func isCalled
  have isStep : state.step host func = state.goOn (.exception :: stack) ctx := by
    rw [VmState.step, isIns]
    exact isExec
  exact ⟨ins, _, isIns, isStep, rfl, rfl⟩

theorem step_return
    (host : Host) (isIns : func.code[state.pc]? = some ins) (isReturn : ins.op = .return)
    (isTop : state.stack.head? = some .exception) :
    state.step host func = .returned .exception state.ctx := by
  rw [VmState.step, isIns]
  dsimp only
  rw [Instruction.exec, isReturn, isTop]
  rfl

/-- A failing call stops the script exactly where the next instruction returns. -/
theorem CallFails.stops_iff
    (fails : state.CallFails host func) :
    state.Stops host func ↔ state.ReturnsNext func := by
  obtain ⟨call, after, isCall, isStep, isNext, isTop⟩ := fails.step
  constructor
  · rintro ⟨⟨fuel, ctx, isRun⟩, onlyReturn⟩
    cases isIns : func.code[after.pc]? with
    | none =>
        have isEnd : after.step host func = .returned .undefined after.ctx := by
          rw [VmState.step, isIns]
        match fuel with
        | 0 => cases isRun
        | 1 =>
            rw [runModuleWithLocals_next isStep] at isRun
            cases isRun
        | fuel + 2 =>
            rw [runModuleWithLocals_next isStep, runModuleWithLocals, isEnd] at isRun
            cases isRun
    | some ins =>
        refine ⟨ins, isNext ▸ isIns, onlyReturn 2 ins ?_⟩
        rw [executed_next isCall isStep, executed, isIns]
        cases after.step host func <;> exact List.mem_cons_self
  · rintro ⟨ins, isIns, isReturn⟩
    rw [← isNext] at isIns
    have isEnd := step_return host isIns isReturn isTop
    refine ⟨⟨2, after.ctx, ?_⟩, ?_⟩
    · rw [runModuleWithLocals_next isStep, runModuleWithLocals, isEnd]
    · intro fuel other isOther
      match fuel with
      | 0 => cases isOther
      | 1 =>
          rw [executed_next isCall isStep] at isOther
          cases isOther
      | fuel + 2 =>
          rw [executed_next isCall isStep, executed, isIns, isEnd] at isOther
          rw [List.mem_singleton.mp isOther]
          exact isReturn

end Steps

end VmState

/-- Every failing call of a run stops the script. -/
def ExceptionsStop (host : Host) (func : BytecodeFunction) (ctx : Context)
    (params : List JSValue) : Prop :=
  ∀ state, VmState.Runs host func (.start func ctx params) state →
    state.CallFails host func → state.Stops host func

/-- In a run of a module, the exception of a called function stops the script if
and only if every call that fails is the operand of a return. -/
theorem exceptionsStop_iff
    (host : Host) (func : BytecodeFunction) (ctx : Context) (params : List JSValue) :
    ExceptionsStop host func ctx params ↔
      ∀ state, VmState.Runs host func (.start func ctx params) state →
        state.CallFails host func → state.ReturnsNext func := by
  constructor
  · intro stop state run fails
    exact fails.stops_iff.mp (stop state run fails)
  · intro returns state run fails
    exact fails.stops_iff.mpr (returns state run fails)

/-- A host whose functions all yield exceptions. -/
def Host.failing : Host :=
  { Host.inert with callFunctionValue := fun ctx _ _ _ => (some .exception, ctx) }

/-- The script `f();g()`. -/
def twoCalls : StmtCompiler :=
  (compileStmts 30 (.new (.new 1000)) [[102, 40, 41], [103, 40, 41]]).getD (.new (.new 0))

theorem twoCalls_compiled : Compiled (.new 1000) twoCalls :=
  .inl ⟨30, [], [[102, 40, 41], [103, 40, 41]], rfl⟩

/-- The context after the first function has been looked up. -/
def StmtCompiler.afterLoad (sc : StmtCompiler) : Context :=
  match VmState.step .failing sc.func (.start sc.func sc.ctx []) with
  | .next state => state.ctx
  | _ => sc.ctx

/-- The second function is called after the first has failed. -/
theorem not_always_exceptionsStop :
    ¬∀ (host : Host) (ctx : Context) (sc : StmtCompiler) (params : List JSValue),
      Compiled ctx sc → ExceptionsStop host sc.func sc.ctx params := by
  intro always
  have run : VmState.Runs .failing twoCalls.func (.start twoCalls.func twoCalls.ctx [])
      ⟨1, [.undefined], [], twoCalls.afterLoad⟩ := .single rfl
  have fails : (⟨1, [.undefined], [], twoCalls.afterLoad⟩ : VmState).CallFails .failing
      twoCalls.func := ⟨⟨.call, 0, 0⟩, twoCalls.afterLoad, rfl, rfl⟩
  have stops := (always .failing (.new 1000) twoCalls [] twoCalls_compiled _ run fails).2
  have isReturn := stops 4 ⟨.call, 0, 0⟩ (by decide)
  cases isReturn

end Script
end MuonJs
