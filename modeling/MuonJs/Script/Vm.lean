import MuonJs.Script.Bytecode

/-!
# The virtual machine

`VM::run_module_with_locals`: a stack of values, the locals and a program
counter.  What an instruction computes from values, and what a function that is
called does, is left to a host that may read and change the context as it likes.
-/

namespace MuonJs
namespace Script

open Cache (Bytes F64 asBytes fromUtf8)

/-! ## The host -/

/-- The errors that the machine throws itself. -/
inductive VmError
  | stackUnderflow
  | stackUnderflowInCall
  | stackUnderflowInCallMethod
  | constOutOfRange
  | globalNameNotString
  | propertySetFailed
  | outOfMemory
  | notAFunction
  deriving DecidableEq

/-- What a computation on values comes to: a value, an error that the machine
returns, or no memory. -/
inductive Computed
  | value (value : JSValue)
  | error (value : JSValue)
  | outOfMemory

/-- What the machine leaves to the functions that it calls. -/
structure Host where
  globalObject : JSValue
  unary : OpCode → Context → JSValue → Computed × Context
  binary : OpCode → Context → JSValue → JSValue → Computed × Context
  setProp : Context → JSValue → JSValue → JSValue → Context
  increment : Context → JSValue → Int32 → Computed × Context
  toNumber : Context → JSValue → Computed × Context
  toString : Context → JSValue → JSValue × Context
  evalValue : Context → Bytes → Option JSValue × Context
  callCFunction : Context → JSValue → JSValue → List JSValue → JSValue × Context
  callFunctionValue : Context → JSValue → JSValue → List JSValue → Option JSValue × Context

namespace Context

/-- `is_truthy`. -/
def isTruthy (ctx : Context) : JSValue → Bool
  | .bool value => value
  | .int value => value ≠ 0
  | .null | .undefined => false
  | .exception => true
  | .ptr address =>
      match ctx.heap address with
      | some (.float value) => value.key ≠ 0 && !value.isNan
      | some (.string bytes) => !bytes.isEmpty
      | _ => true

/-- Whether `Context::c_function_info` finds a C function. -/
def isCFunction (ctx : Context) (value : JSValue) : Bool :=
  (ctx.objectPtr value).any fun (_, obj) => obj.classId = 2

/-- `js_value_to_atom`, for a positive result. -/
def valueToAtom (host : Host) (ctx : Context) (value : JSValue) : Option UInt32 × Context :=
  let (text, ctx) := match ctx.stringBytes value with
    | some _ => (value, ctx)
    | none => host.toString ctx value
  match ctx.stringBytes text with
  | none => (none, ctx)
  | some bytes =>
      let outcome := ctx.internString bytes
      (outcome.1.filter fun atom => 0 < atom.toInt32, outcome.2)

/-- The value of a global: a property of the global object, or what the name
evaluates to where there is none. -/
def loadGlobal (host : Host) (ctx : Context) (name : JSValue) (atom : UInt32) :
    JSValue × Context :=
  let value := (ctx.getPropertyAtomId host.globalObject atom).getD .undefined
  if value = .undefined then
    match ctx.stringBytes name with
    | none => (value, ctx)
    | some bytes =>
        let (isPresent, ctx) := ctx.hasPropertyStr host.globalObject bytes
        if isPresent ∨ (fromUtf8 bytes).isNone then (value, ctx)
        else
          let (resolved, ctx) := host.evalValue ctx bytes
          (resolved.getD value, ctx)
  else (value, ctx)

/-- A function value is called: a C function directly, `Number` with one argument
in place, any other by `call_function_value`. -/
def invoke (host : Host) (ctx : Context) (isMethod : Bool) (func this : JSValue)
    (args : List JSValue) : Option Computed × Context :=
  if ctx.isCFunction func then
    let (result, ctx) := host.callCFunction ctx func this args
    (some (.value result), ctx)
  else
    match args with
    | [arg] =>
        if !isMethod ∧ ctx.stringBytes func = some (asBytes "__builtin_Number__") then
          match arg with
          | .int number => (some (.value (.int number)), ctx)
          | _ =>
              let (number, ctx) := host.toNumber ctx arg
              (some number, ctx)
        else
          let (result, ctx) := host.callFunctionValue ctx func this args
          (result.map .value, ctx)
    | _ =>
        let (result, ctx) := host.callFunctionValue ctx func this args
        (result.map .value, ctx)

end Context

/-! ## Steps -/

/-- The state of a run; the top of the stack comes first. -/
structure VmState where
  pc : ℕ
  stack : List JSValue
  locals : List JSValue
  ctx : Context

/-- What a step leads to. -/
inductive Outcome
  | next (state : VmState)
  | returned (value : JSValue) (ctx : Context)
  | thrown (error : VmError) (ctx : Context)

namespace VmState

/-- Go on to the next instruction, with a stack and a context. -/
def goOn (state : VmState) (stack : List JSValue) (ctx : Context) : Outcome :=
  .next { state with pc := state.pc + 1, stack := stack, ctx := ctx }

/-- Push what has been computed. -/
def pushComputed (state : VmState) (stack : List JSValue) (computed : Computed × Context) :
    Outcome :=
  match computed.1 with
  | .value value => state.goOn (value :: stack) computed.2
  | .error value => .returned value computed.2
  | .outOfMemory => .thrown .outOfMemory computed.2

/-- Continue with the value on the stack. -/
def pop (state : VmState) (go : JSValue → List JSValue → Outcome) : Outcome :=
  match state.stack with
  | [] => .thrown .stackUnderflow state.ctx
  | value :: stack => go value stack

/-- Continue with the two values on the stack, the lower one first. -/
def pop₂ (state : VmState) (go : JSValue → JSValue → List JSValue → Outcome) : Outcome :=
  match state.stack with
  | right :: left :: stack => go left right stack
  | _ => .thrown .stackUnderflow state.ctx

/-- Jump or go on, with a stack. -/
def branch (state : VmState) (stack : List JSValue) (target : UInt32) (isTaken : Bool) :
    Outcome :=
  .next { state with stack := stack, pc := if isTaken then target.toNat else state.pc + 1 }

/-- Continue with the constant of an instruction and its atom. -/
def withGlobal (host : Host) (func : BytecodeFunction) (state : VmState) (index : UInt32)
    (go : JSValue → UInt32 → Context → Outcome) : Outcome :=
  match func.constants[index.toNat]? with
  | none => .thrown .constOutOfRange state.ctx
  | some name =>
      match state.ctx.valueToAtom host name with
      | (none, ctx) => .thrown .globalNameNotString ctx
      | (some atom, ctx) => go name atom ctx

/-- `Call` and `CallMethod`: the arguments and the function on the stack, and for
a method the object below them. -/
def callStep (host : Host) (state : VmState) (isMethod : Bool) (argc : UInt32) : Outcome :=
  let args := (state.stack.take argc.toNat).reverse
  match isMethod, state.stack.drop argc.toNat with
  | false, func :: stack =>
      if args.length < argc.toNat then .thrown .stackUnderflowInCall state.ctx
      else
        match state.ctx.invoke host false func host.globalObject args with
        | (some result, ctx) => state.pushComputed stack (result, ctx)
        | (none, ctx) => .thrown .notAFunction ctx
  | true, func :: this :: stack =>
      if args.length < argc.toNat then .thrown .stackUnderflowInCallMethod state.ctx
      else
        match state.ctx.invoke host true func this args with
        | (some result, ctx) => state.pushComputed stack (result, ctx)
        | (none, ctx) => .thrown .notAFunction ctx
  | false, _ => .thrown .stackUnderflowInCall state.ctx
  | true, _ => .thrown .stackUnderflowInCallMethod state.ctx

/-- `IncLocal`. -/
def incLocal (host : Host) (state : VmState) (slot amount : UInt32) : Outcome :=
  match state.locals[slot.toNat]? with
  | none => state.goOn state.stack state.ctx
  | some (.int old) =>
      { state with locals := state.locals.set slot.toNat (.int (old + amount.toInt32)) }.goOn
        state.stack state.ctx
  | some old =>
      match host.increment state.ctx old amount.toInt32 with
      | (.value value, ctx) =>
          { state with locals := state.locals.set slot.toNat value }.goOn state.stack ctx
      | (.error value, ctx) => .returned value ctx
      | (.outOfMemory, ctx) => .thrown .outOfMemory ctx

end VmState

/-- One instruction. -/
def Instruction.exec (ins : Instruction) (host : Host) (func : BytecodeFunction)
    (state : VmState) : Outcome :=
  match ins.op with
  | .nop => state.goOn state.stack state.ctx
  | .const =>
      match func.constants[ins.a.toNat]? with
      | some value => state.goOn (value :: state.stack) state.ctx
      | none => .thrown .constOutOfRange state.ctx
  | .loadLocal =>
      state.goOn (state.locals[ins.a.toNat]?.getD .undefined :: state.stack) state.ctx
  | .storeLocal =>
      state.pop fun value stack =>
        { state with locals := state.locals.set ins.a.toNat value }.goOn (value :: stack)
          state.ctx
  | .incLocal => state.incLocal host ins.a ins.b
  | .loadGlobal =>
      state.withGlobal host func ins.a fun name atom ctx =>
        let (value, ctx) := ctx.loadGlobal host name atom
        state.goOn (value :: state.stack) ctx
  | .storeGlobal =>
      state.withGlobal host func ins.a fun _ atom ctx =>
        { state with ctx := ctx }.pop fun value stack =>
          match ctx.setPropertyAtomId host.globalObject atom value with
          | (true, ctx) => state.goOn (value :: stack) ctx
          | (false, ctx) => .thrown .propertySetFailed ctx
  | .add | .sub | .mul | .div | .mod | .eq | .neq | .strictEq | .strictNeq | .lt | .gt | .le
  | .ge | .getProp | .getElem | .concat | .bitAnd | .bitOr | .bitXor | .shl | .shr | .uShr =>
      state.pop₂ fun left right stack =>
        state.pushComputed stack (host.binary ins.op state.ctx left right)
  | .not =>
      state.pop fun value stack =>
        state.goOn (.bool (!state.ctx.isTruthy value) :: stack) state.ctx
  | .and =>
      state.pop₂ fun left right stack =>
        state.goOn ((if state.ctx.isTruthy left then right else left) :: stack) state.ctx
  | .or =>
      state.pop₂ fun left right stack =>
        state.goOn ((if state.ctx.isTruthy left then left else right) :: stack) state.ctx
  | .drop | .pop => state.goOn state.stack.tail state.ctx
  | .dup => state.pop fun value stack => state.goOn (value :: value :: stack) state.ctx
  | .jump => state.branch state.stack ins.a true
  | .jumpIfFalse =>
      state.pop fun value stack => state.branch stack ins.a (!state.ctx.isTruthy value)
  | .jumpIfTrue =>
      state.pop fun value stack => state.branch stack ins.a (state.ctx.isTruthy value)
  | .call => state.callStep host false ins.a
  | .callMethod => state.callStep host true ins.a
  | .setProp =>
      match state.stack with
      | value :: key :: obj :: stack =>
          state.goOn (value :: stack) (host.setProp state.ctx obj key value)
      | _ => .thrown .stackUnderflow state.ctx
  | .toNumber | .typeof | .neg | .bitNot =>
      state.pop fun value stack => state.pushComputed stack (host.unary ins.op state.ctx value)
  | .return => .returned (state.stack.head?.getD .undefined) state.ctx

/-- One turn of the loop; at the end of the code the value is undefined. -/
def VmState.step (host : Host) (func : BytecodeFunction) (state : VmState) : Outcome :=
  match func.code[state.pc]? with
  | none => .returned .undefined state.ctx
  | some ins => ins.exec host func state

/-- The state in which a run starts. -/
def VmState.start (func : BytecodeFunction) (ctx : Context) (params : List JSValue) : VmState :=
  ⟨0, [], (params ++ List.replicate func.locals.length JSValue.undefined).take func.locals.length, ctx⟩

/-- A run that has come from one state to another. -/
def VmState.Runs (host : Host) (func : BytecodeFunction) : VmState → VmState → Prop :=
  Relation.ReflTransGen fun state after => state.step host func = .next after

/-- `VM::run_module_with_locals`; fuel counts the turns. -/
def runModuleWithLocals (host : Host) (func : BytecodeFunction) : ℕ → VmState → Option Outcome
  | 0, _ => none
  | fuel + 1, state =>
      match state.step host func with
      | .next after => runModuleWithLocals host func fuel after
      | ended => some ended

end Script
end MuonJs
