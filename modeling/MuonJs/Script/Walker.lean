import MuonJs.Lib.Procedure
import MuonJs.Script.StatementForm

/-!
# The tree walker

The evaluation of statements.  How a statement ends is told in two ways: by its
value, which is `exception` after a throw and missing when the text could not be
read, and by the field `loopControl` of the context.

The rest of the engine, that is the evaluator of expressions and the operations on
objects, is a record of operations (`Engine`).  Such an operation computes on the
heap as it likes; of the context it can do what an `EngineCall` does, and it
reaches statements by calling a closure or by `eval`.

The statement evaluators call one another, and the turns of a loop are calls too,
so that a run needs no more than a depth of calls (`Procedure.run`).
-/

namespace MuonJs
namespace Script
namespace Walker

open Cache (Bytes asBytes natBytes fromUtf8)

/-! ## The context -/

/-- `LoopControl`. -/
inductive LoopControl
  | none
  | breakLoop
  | breakLabel (label : Bytes)
  | continueLoop
  | continueLabel (label : Bytes)
  | returnFrom
  deriving DecidableEq

/-- `CallFrame`: the variables of a function's environment. -/
structure CallFrame where
  slotMap : Bytes → Option JSValue
  varEnv : JSValue

/-- `CachedParamSpec`. -/
structure CachedParamSpec where
  name : Bytes
  default : Option Bytes
  rest : Bool

/-- The fields of `Context` that the evaluation of statements uses, with the heap
and compiled code as parameters.  The last pushed comes first in the stacks. -/
structure State (σ μ : Type) where
  heap : σ
  exception : JSValue
  envStack : List JSValue
  callFrames : List CallFrame
  loopControl : LoopControl
  returnValue : JSValue
  bodyCache : UInt64 → Option (List Bytes)
  paramCache : UInt64 → Option (List CachedParamSpec)
  bytecodeCache : UInt64 → Option (Option μ)
  scriptCache : UInt64 × List Bytes

/-- The stacks by which variables are found. -/
structure Scopes where
  envStack : List JSValue
  callFrames : List CallFrame

/-- `update_call_frame_slot`. -/
def updateCallFrameSlot (env : JSValue) (name : Bytes) (value : JSValue) :
    List CallFrame → List CallFrame
  | [] => []
  | frame :: rest =>
      if frame.varEnv = env then
        { frame with slotMap := Function.update frame.slotMap name (some value) } :: rest
      else frame :: updateCallFrameSlot env name value rest

@[simp] theorem length_updateCallFrameSlot (env : JSValue) (name : Bytes) (value : JSValue)
    (frames : List CallFrame) :
    (updateCallFrameSlot env name value frames).length = frames.length := by
  induction frames with
  | nil => rfl
  | cons frame rest ih =>
      rw [updateCallFrameSlot]
      split
      · rfl
      · rw [List.length_cons, List.length_cons, ih]

/-! ## The engine -/

/-- What has statements evaluated: the call of a closure, or `js_eval` of a text. -/
inductive StatementCall
  | closure (func this : JSValue) (args : List JSValue)
  | program (src : Bytes)
  deriving DecidableEq

/-- What an operation of the engine does outside of the heap. -/
inductive EngineCall (σ : Type)
  | scopes
  | getException
  | setException (value : JSValue)
  | updateCallFrameSlot (env : JSValue) (name : Bytes) (value : JSValue)
  | statements (request : StatementCall) (heap : σ)

/-- The calls of an operation with their results. -/
abbrev engineCalls (σ : Type) : Signature where
  Call := EngineCall σ
  Result
    | .scopes => Scopes
    | .getException => JSValue
    | .setException _ => Unit
    | .updateCallFrameSlot .. => Unit
    | .statements .. => Option JSValue × σ

/-- An operation of the engine. -/
abbrev Operation (σ : Type) := StateT σ (Program (engineCalls σ))

/-- `LValueKey`. -/
inductive LValueKey
  | index (idx : UInt32)
  | name (name : Bytes)

/-- What the evaluation of statements uses of the rest of the engine. -/
structure Engine (σ μ : Type) where
  /-- The bits of a value. -/
  bits : JSValue → UInt64
  globalObject : JSValue
  evalExpr : Bytes → Operation σ (Option JSValue)
  parseLvalue : Bytes → Operation σ (Option (JSValue × LValueKey))
  newObject : Operation σ JSValue
  newArray : ℕ → Operation σ JSValue
  newString : Bytes → Operation σ JSValue
  getPropertyStr : JSValue → Bytes → Operation σ JSValue
  /-- The lookup of `Context`, which calls no accessors. -/
  findPropertyStr : JSValue → Bytes → Operation σ (Option JSValue)
  getPropertyUint32 : JSValue → ℕ → Operation σ JSValue
  setPropertyStr : JSValue → Bytes → JSValue → Operation σ Unit
  setPropertyUint32 : JSValue → ℕ → JSValue → Operation σ Unit
  /-- Bind a name to `UNINITIALIZED`, and mark it when it is a constant. -/
  predeclare : JSValue → Bytes → Bool → Operation σ Unit
  objectClassId : JSValue → Operation σ (Option UInt32)
  objectKeys : JSValue → Operation σ (Option (List Bytes))
  stringBytes : JSValue → Operation σ (Option Bytes)
  createFunction : List Bytes → Bytes → Operation σ (Option JSValue)
  currentVarEnv : Operation σ JSValue
  throwSyntaxError : Operation σ JSValue
  /-- The compiler, with the names of the parameters and the statements. -/
  compileStmts : List Bytes → List Bytes → Operation σ (Option μ)
  runModule : μ → List JSValue → Operation σ JSValue

section Operations

variable {S : Signature} {σ μ α : Type}
  (callStatements : StatementCall → Procedure S (State σ μ) (Option JSValue))

/-- Carry out the calls of an operation in the context. -/
def carryOutProgram :
    Program (engineCalls σ) (α × σ) → Procedure S (State σ μ) α
  | .pure done => fun state => .pure (done.1, { state with heap := done.2 })
  | .call .scopes next => fun state =>
      carryOutProgram (next ⟨state.envStack, state.callFrames⟩) state
  | .call .getException next => fun state => carryOutProgram (next state.exception) state
  | .call (.setException value) next => fun state =>
      carryOutProgram (next ()) { state with exception := value }
  | .call (.updateCallFrameSlot env name value) next => fun state =>
      carryOutProgram (next ())
        { state with callFrames := updateCallFrameSlot env name value state.callFrames }
  | .call (.statements request heap) next => fun state =>
      callStatements request { state with heap } >>= fun done =>
        carryOutProgram (next (done.1, done.2.heap)) done.2

/-- Carry out an operation of the engine. -/
def carryOut (operation : Operation σ α) : Procedure S (State σ μ) α :=
  fun state => carryOutProgram callStatements (operation state.heap) state

end Operations

/-! ## The procedures -/

/-- The evaluators that are called, each with its arguments.  The scope of a loop,
a switch or a catch clause is what is evaluated while its environment is pushed. -/
inductive Call
  | block (body : Bytes)
  | blockCached (stmts : List Bytes)
  | functionBody (body : Bytes)
  | functionBodyCached (stmts : List Bytes)
  | whileTurns (condition : Bytes) (body : LoopBody) (label : Option Bytes) (last : JSValue)
  | doTurns (condition : Bytes) (body : LoopBody) (label : Option Bytes) (last : JSValue)
  | forTurns (condition update : Bytes) (body : LoopBody) (label : Option Bytes)
      (last : JSValue)
  | forScope (loop : ForLoop) (label : Option Bytes)
  | switchScope (value : JSValue) (cases : List SwitchCase)
  | catchScope (body : Bytes)
  | statements (request : StatementCall)
  /-- The end of the process: it does not return. -/
  | abort
  deriving DecidableEq

/-- Every evaluator returns a value or none. -/
abbrev calls : Signature := ⟨Call, fun _ => Option JSValue⟩

/-- A part of the evaluation of statements. -/
abbrev Walk (σ μ : Type) := Procedure calls (State σ μ)

section Shared

variable {S : Signature} {σ μ : Type} (engine : Engine σ μ)
  (callStatements : StatementCall → Procedure S (State σ μ) (Option JSValue))

/-- `current_env`. -/
def currentEnv : Procedure S (State σ μ) JSValue := do
  return (← get).envStack.head?.getD engine.globalObject

/-- `push_env`. -/
def pushEnv (env : JSValue) : Procedure S (State σ μ) Unit :=
  modify fun state => { state with envStack := env :: state.envStack }

/-- `pop_env`. -/
def popEnv : Procedure S (State σ μ) Unit :=
  modify fun state => { state with envStack := state.envStack.tail }

/-- `set_loop_control`. -/
def setLoopControl (control : LoopControl) : Procedure S (State σ μ) Unit :=
  modify fun state => { state with loopControl := control }

/-- `set_return_value`. -/
def setReturnValue (value : JSValue) : Procedure S (State σ μ) Unit :=
  modify fun state => { state with returnValue := value }

/-- `set_exception`. -/
def setException (value : JSValue) : Procedure S (State σ μ) Unit :=
  modify fun state => { state with exception := value }

/-- Push a new environment whose parent is the current one. -/
def enterScope : Procedure S (State σ μ) JSValue := do
  let parent ← currentEnv engine
  let env ← carryOut callStatements engine.newObject
  carryOut callStatements (engine.setPropertyStr env (asBytes "__parent__") parent)
  pushEnv env
  return env

/-- Push a new environment that is marked as a block's. -/
def enterBlock : Procedure S (State σ μ) Unit := do
  let parent ← currentEnv engine
  let env ← carryOut callStatements engine.newObject
  carryOut callStatements (engine.setPropertyStr env (asBytes "__parent__") parent)
  carryOut callStatements (engine.setPropertyStr env (asBytes "__block__") (.bool true))
  pushEnv env

/-- The name that a statement declares in the block around it, and whether it is a
constant. -/
def lexicalName (statement : Bytes) : Option (Bytes × Bool) :=
  if declaresLexically statement then
    let isConst := startsWith "const " statement
    let rest := trim (statement.drop (if isConst then 6 else 4))
    let name := trim ((rest.splitOn 61).headD [])
    if isIdentifier name then some (name, isConst) else none
  else none

/-- Bind declared names in an environment. -/
def predeclareIn (env : JSValue) : List (Bytes × Bool) → Procedure S (State σ μ) Unit
  | [] => pure ()
  | (name, isConst) :: rest => do
      carryOut callStatements (engine.predeclare env name isConst)
      predeclareIn env rest

/-- `predeclare_block_bindings_from_stmts`. -/
def predeclareBlockBindings (stmts : List Bytes) : Procedure S (State σ μ) Unit := do
  predeclareIn engine callStatements (← currentEnv engine)
    (stmts.filterMap fun stmt => lexicalName (trim stmt))

/-- `parse_function_declaration`. -/
def parseFunctionDeclaration (src : Bytes) : Procedure S (State σ μ) (Option JSValue) :=
  match functionParts src with
  | none => return none
  | some (name, params, body) => do
      match ← carryOut callStatements (engine.createFunction params body) with
      | none => return none
      | some func =>
          let env ← currentEnv engine
          carryOut callStatements (engine.setPropertyStr env name func)
          return some func

/-- The truth of a condition: the test that the statement evaluators spell out, and
`is_truthy` of the statement parser. -/
def isTrue : JSValue → Bool
  | .bool value => value
  | .int value => value ≠ 0
  | .null => false
  | .undefined => false
  | _ => true

/-- `get_object_keys`. -/
def getObjectKeys (obj : JSValue) : Procedure S (State σ μ) (Option (List Bytes)) := do
  if (← carryOut callStatements (engine.objectClassId obj)) = some arrayClass then
    match ← carryOut callStatements (engine.getPropertyStr obj (asBytes "length")) with
    | .int len => return some ((List.range len.toInt.toNat).map natBytes)
    | _ => return some []
  else carryOut callStatements (engine.objectKeys obj)

/-- The elements that `parse_for_of_loop` goes through: their number, when the
value is an array. -/
def forOfLength (iterable : JSValue) : Procedure S (State σ μ) (Option ℕ) := do
  if (← carryOut callStatements (engine.objectClassId iterable)) = some arrayClass then
    match ← carryOut callStatements (engine.findPropertyStr iterable (asBytes "length")) with
    | some (.int len) => return some len.toInt.toNat
    | _ => return none
  else return none

/-- The environment in which a loop binds its variable. -/
def loopVarEnv (kind : Option DeclKind) : Procedure S (State σ μ) JSValue :=
  if kind = some .var then carryOut callStatements engine.currentVarEnv else currentEnv engine

/-- Bind the variable of a for-in loop to a key; none when the target cannot be
assigned to. -/
def assignKey (kind : Option DeclKind) (target : Bytes) (env : JSValue) (key : Bytes) :
    Procedure S (State σ μ) (Option Unit) := do
  let keyVal ← carryOut callStatements (engine.newString key)
  if kind.isSome then
    carryOut callStatements (engine.setPropertyStr env target keyVal)
    return some ()
  else
    match ← carryOut callStatements (engine.parseLvalue target) with
    | none => return none
    | some (base, .index idx) =>
        carryOut callStatements (engine.setPropertyUint32 base idx.toNat keyVal)
        return some ()
    | some (base, .name name) =>
        carryOut callStatements (engine.setPropertyStr base name keyVal)
        return some ()

/-- The environment of a catch clause, with its parameter bound to what was thrown. -/
def bindThrown (param : Option Bytes) (thrown : JSValue) :
    Procedure S (State σ μ) Unit := do
  setException .undefined
  let env ← enterScope engine callStatements
  match param with
  | some name => carryOut callStatements (engine.setPropertyStr env name thrown)
  | none => return

/-- Take the exception and enter a catch clause with it. -/
def enterCatch (param : Option Bytes) : Procedure S (State σ μ) Unit := do
  bindThrown engine callStatements param (← get).exception

/-! ### Calling a closure -/

/-- The parameter that a part of the list of parameters declares. -/
def paramSpec (raw : Bytes) : CachedParamSpec :=
  if startsWith "..." raw then ⟨trim (raw.drop 3), none, true⟩
  else
    match findSeqFrom [61] 0 raw with
    | some position =>
        ⟨trim (raw.take position), some (trim (raw.drop (position + 1))), false⟩
    | none => ⟨raw, none, false⟩

/-- The parameters up to a rest parameter. -/
def paramSpecs : List Bytes → List CachedParamSpec
  | [] => []
  | raw :: rest =>
      if (trim raw).isEmpty then paramSpecs rest
      else if startsWith "..." (trim raw) then [paramSpec (trim raw)]
      else paramSpec (trim raw) :: paramSpecs rest

/-- The parameters that the text of a parameter list declares. -/
def parseParamSpecs (bytes : Option Bytes) : List CachedParamSpec :=
  match bytes with
  | some bytes => if (fromUtf8 bytes).isSome then paramSpecs (bytes.splitOn 44) else []
  | none => []

/-- The statements of a function body; comments that are not closed are kept. -/
def parseBody (bytes : Bytes) : List Bytes :=
  trimmedStatements
    ((splitStatements
      (normalizeLineContinuations ((stripCommentsChecked bytes).getD bytes))).getD [])

/-- The parameters of a closure whose parameter list is a value, from the cache or from
their text. -/
def cachedParams (paramsVal : JSValue) : Procedure S (State σ μ) (List CachedParamSpec) := do
  match (← get).paramCache (engine.bits paramsVal) with
  | some specs => return specs
  | none =>
      let specs := parseParamSpecs (← carryOut callStatements (engine.stringBytes paramsVal))
      modify fun state =>
        { state with
          paramCache := Function.update state.paramCache (engine.bits paramsVal) (some specs) }
      return specs

/-- The statements of a closure whose body is a value, from the cache or from its
text; none when it has no text. -/
def cachedBody (bodyVal : JSValue) : Procedure S (State σ μ) (Option (List Bytes)) := do
  match (← get).bodyCache (engine.bits bodyVal) with
  | some stmts => return some stmts
  | none =>
      match ← carryOut callStatements (engine.stringBytes bodyVal) with
      | none => return none
      | some bytes =>
          if (fromUtf8 bytes).isSome then
            modify fun state =>
              { state with
                bodyCache := Function.update state.bodyCache (engine.bits bodyVal)
                  (some (parseBody bytes)) }
            return some (parseBody bytes)
          else return none

/-- The name of a closure, when it is a text that fits the buffer. -/
def functionName (func : JSValue) : Procedure S (State σ μ) (Option Bytes) := do
  let nameVal ← carryOut callStatements (engine.getPropertyStr func (asBytes "name"))
  if nameVal = .undefined then return none
  else
    return (← carryOut callStatements (engine.stringBytes nameVal)).filter fun name =>
      decide (name.length ≤ 64) && (fromUtf8 name).isSome

/-- Store values in an array, from an index on. -/
def fillArray (array : JSValue) : ℕ → List JSValue → Procedure S (State σ μ) Unit
  | _, [] => pure ()
  | index, value :: rest => do
      carryOut callStatements (engine.setPropertyUint32 array index value)
      fillArray array (index + 1) rest

/-- Bind `arguments`. -/
def bindArguments (env : JSValue) (args : List JSValue) : Procedure S (State σ μ) Unit := do
  let array ← carryOut callStatements (engine.newArray args.length)
  if array ≠ .exception then
    fillArray engine callStatements array 0 args
    carryOut callStatements (engine.setPropertyStr env (asBytes "arguments") array)

/-- The value of a parameter: its default when the argument is undefined. -/
def paramValue (spec : CachedParamSpec) (given : JSValue) :
    Procedure S (State σ μ) JSValue :=
  match given, spec.default with
  | .undefined, some expr =>
      (·.getD .undefined) <$> carryOut callStatements (engine.evalExpr expr)
  | _, _ => pure given

/-- Bind the parameters; false when a rest parameter lies beyond the arguments, where
the slice of the source panics. -/
def bindParams (env : JSValue) (args : List JSValue) :
    ℕ → List CachedParamSpec → Procedure S (State σ μ) Bool
  | _, [] => pure true
  | index, spec :: specs =>
      if spec.rest then
        if args.length < index then return false
        else do
          let array ← carryOut callStatements (engine.newArray (args.drop index).length)
          fillArray engine callStatements array 0 (args.drop index)
          carryOut callStatements (engine.setPropertyStr env spec.name array)
          return true
      else do
        let value ← paramValue engine callStatements spec (args.getD index .undefined)
        carryOut callStatements (engine.setPropertyStr env spec.name value)
        bindParams env args (index + 1) specs

/-- Run the compiled body, compiling it when that was not tried before; none when
the body does not compile. -/
def runCompiled (key : UInt64) (params : List Bytes) (stmts : List Bytes)
    (args : List JSValue) : Procedure S (State σ μ) (Option JSValue) := do
  match (← get).bytecodeCache key with
  | some (some module) => some <$> carryOut callStatements (engine.runModule module args)
  | some none => return none
  | none =>
      match ← carryOut callStatements (engine.compileStmts params stmts) with
      | some module =>
          let result ← carryOut callStatements (engine.runModule module args)
          modify fun state =>
            { state with
              bytecodeCache := Function.update state.bytecodeCache key (some (some module)) }
          return some result
      | none =>
          modify fun state =>
            { state with bytecodeCache := Function.update state.bytecodeCache key (some none) }
          return none

/-- Bind the name of a function in its own environment. -/
def bindName (env func : JSValue) : Option Bytes → Procedure S (State σ μ) Unit
  | some name => carryOut callStatements (engine.setPropertyStr env name func)
  | none => pure ()

/-- What an opened closure comes to before its body is walked. -/
inductive Opened
  | aborted
  | ran (result : JSValue)
  | walk (stmts : List Bytes)

/-- The text of a closure: its parameters and statements, with the key of its body;
none when it has no body. -/
def closureText (func : JSValue) :
    Procedure S (State σ μ) (Option (List CachedParamSpec × List Bytes × UInt64)) := do
  let paramsVal ← carryOut callStatements (engine.getPropertyStr func (asBytes "__params__"))
  let bodyVal ← carryOut callStatements (engine.getPropertyStr func (asBytes "__body__"))
  let specs ← cachedParams engine callStatements paramsVal
  return (← cachedBody engine callStatements bodyVal).map fun stmts =>
    (specs, stmts, engine.bits bodyVal)

/-- Push the environment and the call frame of a closure. -/
def pushClosure (func this : JSValue) : Procedure S (State σ μ) (JSValue × JSValue) := do
  let parentEnv ← carryOut callStatements (engine.getPropertyStr func (asBytes "__env__"))
  let env ← carryOut callStatements engine.newObject
  carryOut callStatements (engine.setPropertyStr env (asBytes "__parent__") parentEnv)
  carryOut callStatements (engine.setPropertyStr env (asBytes "__var_env__") (.bool true))
  modify fun state => { state with callFrames := ⟨fun _ => none, env⟩ :: state.callFrames }
  carryOut callStatements (engine.setPropertyStr env (asBytes "this") this)
  pushEnv env
  return (env, parentEnv)

/-- `call_closure_with_this` from the lookup of the function's name to the walk of its
body. -/
def openClosure (func this : JSValue) (args : List JSValue) (specs : List CachedParamSpec)
    (stmts : List Bytes) (key : UInt64) : Procedure S (State σ μ) Opened := do
  let name ← functionName engine callStatements func
  let (env, parentEnv) ← pushClosure engine callStatements func this
  predeclareBlockBindings engine callStatements stmts
  bindName engine callStatements env func name
  bindArguments engine callStatements env args
  if ← bindParams engine callStatements env args 0 specs then
    if parentEnv = .undefined ∨ parentEnv = engine.globalObject then
      let params := (specs.filter fun spec => !spec.rest).map CachedParamSpec.name
      match ← runCompiled engine callStatements key params stmts args with
      | some result => return .ran result
      | none => return .walk stmts
    else return .walk stmts
  else return .aborted

/-- A return ends at the function. -/
def endReturn : Procedure S (State σ μ) Unit :=
  modify fun state =>
    { state with
      loopControl := if state.loopControl = .returnFrom then .none else state.loopControl }

/-- The end of `call_closure_with_this`: the environment and the frame are popped. -/
def leaveClosure : Procedure S (State σ μ) Unit := do
  endReturn
  popEnv
  modify fun state => { state with callFrames := state.callFrames.tail }

end Shared

/-! ## The evaluation of statements -/

section Walk

variable {σ μ : Type} (engine : Engine σ μ)

/-- `call_closure_with_this` or `eval_program`, called by an operation of the engine. -/
def callStatements (request : StatementCall) : Walk σ μ (Option JSValue) :=
  Procedure.call (S := calls) (.statements request)

/-- Carry out an operation of the engine. -/
def perform {α : Type} (operation : Operation σ α) : Walk σ μ α :=
  carryOut callStatements operation

/-- `eval_expr`. -/
def evalExpr (expr : Bytes) : Walk σ μ (Option JSValue) := perform (engine.evalExpr expr)

/-- Evaluate a block or a single statement. -/
def evalBranch (branch : Branch) : Walk σ μ (Option JSValue) :=
  if branch.isBlock then Procedure.call (S := calls) (.block branch.text)
  else Procedure.call (S := calls) (.functionBody branch.text)

/-- Evaluate the body of a loop once. -/
def evalLoopBody (body : LoopBody) : Walk σ μ (Option JSValue) :=
  match body.cachedStmts with
  | some stmts =>
      if body.needsBlockScope then Procedure.call (S := calls) (.blockCached stmts)
      else Procedure.call (S := calls) (.functionBodyCached stmts)
  | none => evalBranch body.toBranch

/-- The test of `loopControl` that each loop makes after its body: whether the loop
goes on. -/
def heedLoopControl (label : Option Bytes) : Walk σ μ Bool := do
  match (← get).loopControl with
  | .breakLoop =>
      setLoopControl .none
      return false
  | .breakLabel target =>
      if label = some target then
        setLoopControl .none
        return false
      else return false
  | .continueLoop =>
      setLoopControl .none
      return true
  | .continueLabel target =>
      if label = some target then
        setLoopControl .none
        return true
      else return false
  | .returnFrom => return false
  | .none => return true

/-- The end of a turn of a loop, after its body: a further turn, or the value of the
loop. -/
def endTurn (label : Option Bytes) (goOn : JSValue → Walk σ μ (Option JSValue)) :
    Option JSValue → Walk σ μ (Option JSValue)
  | none => return none
  | some last => do if ← heedLoopControl label then goOn last else return some last

/-- A labelled statement ends a break to its label. -/
def clearBreakLabel (label : Bytes) : Walk σ μ Unit :=
  modify fun state =>
    { state with
      loopControl :=
        if state.loopControl = .breakLabel label then .none else state.loopControl }

/-- Evaluate an expression unless it is empty. -/
def evalUnlessEmpty (expr : Bytes) (otherwise : JSValue) : Walk σ μ (Option JSValue) :=
  if expr.isEmpty then pure (some otherwise) else evalExpr engine expr

/-- Leave the scope of a loop, a switch or a catch clause: when it gave nothing, its
environment stays on the stack. -/
def leaveScope : Option JSValue → Walk σ μ (Option JSValue)
  | none => return none
  | some last => do
      popEnv
      return some last

/-- `parse_if_statement`. -/
def parseIfStatement (src : Bytes) : Walk σ μ (Option JSValue) :=
  match ifParts src with
  | none => return none
  | some parts => do
      match ← evalExpr engine parts.condition with
      | none => return none
      | some condVal =>
          match if isTrue condVal then some parts.thenBody else parts.elseBody with
          | none => return some .undefined
          | some branch =>
              match ← evalBranch branch with
              | none => return none
              | some result =>
                  let state ← get
                  if state.loopControl = .returnFrom then return some state.returnValue
                  else return some result

/-- The turns of `parse_while_loop`, from the test of the condition on. -/
def whileTurns (condition : Bytes) (body : LoopBody) (label : Option Bytes)
    (last : JSValue) : Walk σ μ (Option JSValue) := do
  match ← evalExpr engine condition with
  | none => return none
  | some condVal =>
      if isTrue condVal then
        endTurn label
          (fun last => Procedure.call (S := calls) (.whileTurns condition body label last))
          (← evalLoopBody body)
      else return some last

/-- `parse_while_loop`. -/
def parseWhileLoop (src : Bytes) (label : Option Bytes) : Walk σ μ (Option JSValue) :=
  match whileParts src with
  | none => return none
  | some (condition, body) =>
      Procedure.call (S := calls) (.whileTurns condition body label .undefined)

/-- The turns of `parse_do_while_loop`, from the test of the condition on. -/
def doTurns (condition : Bytes) (body : LoopBody) (label : Option Bytes)
    (last : JSValue) : Walk σ μ (Option JSValue) := do
  match ← evalExpr engine condition with
  | none => return none
  | some condVal =>
      if isTrue condVal then
        endTurn label
          (fun last => Procedure.call (S := calls) (.doTurns condition body label last))
          (← evalLoopBody body)
      else return some last

/-- `parse_do_while_loop`. -/
def parseDoWhileLoop (src : Bytes) (label : Option Bytes) : Walk σ μ (Option JSValue) :=
  match doWhileParts src with
  | none => return none
  | some (body, condition) => do
      endTurn label
        (fun last => Procedure.call (S := calls) (.doTurns condition body label last))
        (← evalLoopBody body)

/-- The turns of `parse_for_loop`, from the test of the condition on. -/
def forTurns (condition update : Bytes) (body : LoopBody) (label : Option Bytes)
    (last : JSValue) : Walk σ μ (Option JSValue) := do
  match ← evalUnlessEmpty engine condition (.bool true) with
  | none => return none
  | some condVal =>
      if isTrue condVal then
        endTurn label
          (fun last => do
            match ← evalUnlessEmpty engine update .undefined with
            | none => return none
            | some _ =>
                Procedure.call (S := calls) (.forTurns condition update body label last))
          (← evalLoopBody body)
      else return some last

/-- The turns of `parse_for_in_loop`, over the keys. -/
def forInTurns (kind : Option DeclKind) (target : Bytes) (body : LoopBody)
    (label : Option Bytes) (env : JSValue) :
    JSValue → List Bytes → Walk σ μ (Option JSValue)
  | last, [] => return some last
  | _, key :: keys => do
      match ← assignKey engine callStatements kind target env key with
      | none => return none
      | some () =>
          endTurn label (fun last => forInTurns kind target body label env last keys)
            (← evalLoopBody body)

/-- The turns of `parse_for_of_loop`, over the indices. -/
def forOfTurns (name : Bytes) (iterable : JSValue) (body : LoopBody) (label : Option Bytes)
    (env : JSValue) : JSValue → List ℕ → Walk σ μ (Option JSValue)
  | last, [] => return some last
  | _, index :: indices => do
      let elem ← perform (engine.getPropertyUint32 iterable index)
      perform (engine.setPropertyStr env name elem)
      endTurn label (fun last => forOfTurns name iterable body label env last indices)
        (← evalLoopBody body)

/-- What a for loop evaluates in its environment. -/
def forScope (label : Option Bytes) : ForLoop → Walk σ μ (Option JSValue)
  | .cStyle init condition update body => do
      match ← evalUnlessEmpty engine init .undefined with
      | none => return none
      | some _ =>
          Procedure.call (S := calls) (.forTurns condition update body label .undefined)
  | .forIn kind target objExpr body => do
      match ← evalExpr engine objExpr with
      | none => return none
      | some obj =>
          match ← getObjectKeys engine callStatements obj with
          | none => return none
          | some keys =>
              let env ← loopVarEnv engine callStatements kind
              if kind.isSome ∧ ¬isIdentifier target then return none
              else forInTurns engine kind target body label env .undefined keys
  | .forOf kind name iterExpr body => do
      match ← evalExpr engine iterExpr with
      | none => return none
      | some iterable =>
          match ← forOfLength engine callStatements iterable with
          | none => return some .undefined
          | some len =>
              let env ← loopVarEnv engine callStatements kind
              forOfTurns engine name iterable body label env .undefined (List.range len)

/-- `parse_for_loop`, with `parse_for_in_loop` and `parse_for_of_loop`. -/
def parseForLoop (src : Bytes) (label : Option Bytes) : Walk σ μ (Option JSValue) :=
  match forParts src with
  | none => return none
  | some loop => do
      enterBlock engine callStatements
      leaveScope (← Procedure.call (S := calls) (.forScope loop label))

/-- The catch clause of `parse_try_catch`. -/
def runCatch (param : Option Bytes) (body : Bytes) : Walk σ μ (Option JSValue) := do
  enterCatch engine callStatements param
  leaveScope (← Procedure.call (S := calls) (.catchScope body))

/-- Set the exception again that a finally clause found, if there was one. -/
def restoreException (saved : JSValue) : Walk σ μ Unit :=
  if saved = .undefined then pure () else setException saved

/-- The finally clause of `parse_try_catch`. -/
def runFinally (body : Bytes) (result : JSValue) : Walk σ μ (Option JSValue) := do
  let state ← get
  let saved := if result = .exception then state.exception else .undefined
  match ← Procedure.call (S := calls) (.block body) with
  | none => return none
  | some finallyVal =>
      if finallyVal = .exception then return some finallyVal
      else do
        restoreException saved
        return some result

/-- The catch clause, when the try block threw or could not be read. -/
def afterTry (catchClause : Option (Option Bytes × Bytes)) (tried : Option JSValue) :
    Walk σ μ (Option JSValue) :=
  match catchClause with
  | some (param, body) =>
      if tried = none ∨ tried = some .exception then runCatch engine param body
      else pure tried
  | none => pure tried

/-- `parse_try_catch`. -/
def parseTryCatch (src : Bytes) : Walk σ μ (Option JSValue) :=
  match tryParts src with
  | none => return none
  | some parts => do
      let tried ← Procedure.call (S := calls) (.block parts.tryBody)
      let result ← afterTry engine parts.catchClause tried
      match result, parts.finallyBody with
      | some result, some body => runFinally body result
      | result, _ => return result

/-- Evaluate the body of a clause: its value and whether a break ends the switch. -/
def evalCaseBody (body : Bytes) : Walk σ μ (Option (JSValue × Bool)) := do
  match ← Procedure.call (S := calls) (.functionBody body) with
  | none => return none
  | some last =>
      if (← get).loopControl = .breakLoop then
        setLoopControl .none
        return some (last, true)
      else return some (last, false)

/-- The loop of `parse_switch_statement` over the clauses. -/
def switchScope (value : JSValue) :
    Bool → JSValue → Option Bytes → List SwitchCase → Walk σ μ (Option JSValue)
  | true, last, _, [] => return some last
  | false, last, none, [] => return some last
  | false, _, some body, [] => do
      match ← evalCaseBody body with
      | none => return none
      | some (last, _) => return some last
  | true, _, foundDefault, (expr, body) :: cases => do
      match ← evalCaseBody body with
      | none => return none
      | some (last, true) => return some last
      | some (last, false) =>
          switchScope value true last (if expr.isNone then some body else foundDefault) cases
  | false, last, _, (none, body) :: cases => switchScope value false last (some body) cases
  | false, last, foundDefault, (some expr, body) :: cases => do
      match ← evalExpr engine expr with
      | none => return none
      | some caseVal =>
          if value = caseVal then
            match ← evalCaseBody body with
            | none => return none
            | some (last, true) => return some last
            | some (last, false) => switchScope value true last foundDefault cases
          else switchScope value false last foundDefault cases

/-- `parse_switch_statement`. -/
def parseSwitchStatement (src : Bytes) : Walk σ μ (Option JSValue) :=
  match switchParts src with
  | none => return none
  | some (expr, after) => do
      match ← evalExpr engine expr with
      | none => return none
      | some value =>
          match switchClauses after with
          | none => return none
          | some cases =>
              enterBlock engine callStatements
              leaveScope (← Procedure.call (S := calls) (.switchScope value cases))

/-- `parse_labeled_statement`, after its label. -/
def parseLabeledStatement (label : Bytes) : Labeled → Walk σ μ (Option JSValue)
  | .block body => do
      let result ← Procedure.call (S := calls) (.block body)
      clearBreakLabel label
      return result
  | .forLoop src => parseForLoop engine src (some label)
  | .whileLoop src => parseWhileLoop src (some label)
  | .doWhile src => parseDoWhileLoop src (some label)
  | .other src => do
      let result ← Procedure.call (S := calls) (.functionBody src)
      clearBreakLabel label
      return result

/-- What the loop over statements does after one of them. -/
inductive Step
  | done (result : Option JSValue)
  | next (last : JSValue)

/-- After a compound statement the loop ends when `loopControl` is set. -/
def afterCompound (result : Option JSValue) : Walk σ μ Step := do
  match result with
  | none => return .done none
  | some last =>
      if (← get).loopControl = .none then return .next last else return .done (some last)

/-- Set `loopControl` and end the loop over statements. -/
def jump (control : LoopControl) (result : JSValue) : Walk σ μ Step := do
  setLoopControl control
  return .done (some result)

/-- Throw a value and end the loop over statements. -/
def throwValue (value : JSValue) : Walk σ μ Step := do
  setException value
  return .done (some .exception)

/-- Evaluate a statement of a function body by its form. -/
def evalStatement (text : Bytes) : StatementForm → Walk σ μ Step
  | .breakTo none => jump .breakLoop .undefined
  | .breakTo (some label) => jump (.breakLabel label) .undefined
  | .continueTo none => jump .continueLoop .undefined
  | .continueTo (some label) => jump (.continueLabel label) .undefined
  | .returnOf none => do
      setReturnValue .undefined
      jump .returnFrom .undefined
  | .returnOf (some operand) => do
      match ← evalExpr engine operand with
      | none => return .done none
      | some value =>
          setReturnValue value
          jump .returnFrom value
  | .throwOf none => throwValue .undefined
  | .throwOf (some operand) => do
      match ← evalExpr engine operand with
      | none => return .done none
      | some value => throwValue value
  | .tryCatch => do afterCompound (← parseTryCatch engine text)
  | .functionDeclaration => do
      match ← parseFunctionDeclaration engine callStatements text with
      | none => return .done none
      | some func => return .next func
  | .labeled label statement => do
      afterCompound (← parseLabeledStatement engine label statement)
  | .ifElse => do afterCompound (← parseIfStatement engine text)
  | .whileLoop => do afterCompound (← parseWhileLoop text none)
  | .forLoop => do afterCompound (← parseForLoop engine text none)
  | .doWhile => do afterCompound (← parseDoWhileLoop text none)
  | .switch => do afterCompound (← parseSwitchStatement engine text)
  | .block =>
      match extractBraces text with
      | none => return .done none
      | some found => do
          afterCompound (← Procedure.call (S := calls) (.block found.1))
  | .expression => do
      match ← evalExpr engine text with
      | none => return .done none
      | some .exception => return .done (some .exception)
      | some last => afterCompound (some last)

/-- The loop over the statements of a function body. -/
def evalStatements (form : Bytes → StatementForm) :
    JSValue → List Bytes → Walk σ μ (Option JSValue)
  | last, [] => return some last
  | _, text :: rest => do
      match ← evalStatement engine text (form text) with
      | .done result => return result
      | .next last => evalStatements form last rest

/-- `eval_function_body`. -/
def evalFunctionBody (body : Bytes) : Walk σ μ (Option JSValue) :=
  match parseBodyToStmts body with
  | none => return none
  | some stmts => evalStatements engine statementForm .undefined stmts

/-- `eval_function_body_cached`. -/
def evalFunctionBodyCached (stmts : List Bytes) : Walk σ μ (Option JSValue) :=
  evalStatements engine statementFormCached .undefined (stmts.filter fun text => !text.isEmpty)

/-- What `eval_program` does after a statement: it goes on, whatever is pending. -/
def goOn : Option JSValue → Walk σ μ Step
  | none => return .done none
  | some last => return .next last

/-- Evaluate a statement of a program by its form. -/
def evalProgramStatement (text : Bytes) : StatementForm → Walk σ μ Step
  | .ifElse => do goOn (← parseIfStatement engine text)
  | .whileLoop => do goOn (← parseWhileLoop text none)
  | .forLoop => do goOn (← parseForLoop engine text none)
  | .doWhile => do goOn (← parseDoWhileLoop text none)
  | .switch => do goOn (← parseSwitchStatement engine text)
  | .tryCatch => do goOn (← parseTryCatch engine text)
  | .expression => do
      match ← evalExpr engine text with
      | some .exception => return .done (some .exception)
      | result => goOn result
  | form => evalStatement engine text form

/-- The loop over the statements of a program. -/
def evalProgramStatements : JSValue → List Bytes → Walk σ μ (Option JSValue)
  | last, [] => return some last
  | _, text :: rest => do
      match ← evalProgramStatement engine text (programForm text) with
      | .done result => return result
      | .next last => evalProgramStatements last rest

/-- `eval_program`: a text without statements has no value. -/
def evalProgram (src : Bytes) : Walk σ μ (Option JSValue) :=
  match parseBodyToStmts src with
  | none => return none
  | some [] => return none
  | some stmts => evalProgramStatements engine .undefined stmts

/-- `eval_block`. -/
def evalBlock (body : Bytes) : Walk σ μ (Option JSValue) := do
  enterBlock engine callStatements
  predeclareBlockBindings engine callStatements ((splitStatements body).getD [])
  let result ← Procedure.call (S := calls) (.functionBody body)
  popEnv
  return result

/-- `eval_block_cached`. -/
def evalBlockCached (stmts : List Bytes) : Walk σ μ (Option JSValue) := do
  enterBlock engine callStatements
  predeclareBlockBindings engine callStatements stmts
  let result ← Procedure.call (S := calls) (.functionBodyCached stmts)
  popEnv
  return result

/-- `call_closure_with_this`. -/
def callClosureWithThis (func this : JSValue) (args : List JSValue) :
    Walk σ μ (Option JSValue) := do
  match ← closureText engine callStatements func with
  | none => return none
  | some (specs, stmts, key) =>
      match ← openClosure engine callStatements func this args specs stmts key with
      | .aborted => Procedure.call (S := calls) .abort
      | .ran result =>
          leaveClosure
          return some result
      | .walk stmts =>
          let result ← Procedure.call (S := calls) (.functionBodyCached stmts)
          leaveClosure
          return result

/-- The bodies of the evaluators. -/
def bodies : Procedure.Bodies calls (State σ μ)
  | .block body => evalBlock engine body
  | .blockCached stmts => evalBlockCached engine stmts
  | .functionBody body => evalFunctionBody engine body
  | .functionBodyCached stmts => evalFunctionBodyCached engine stmts
  | .whileTurns condition body label last => whileTurns engine condition body label last
  | .doTurns condition body label last => doTurns engine condition body label last
  | .forTurns condition update body label last =>
      forTurns engine condition update body label last
  | .forScope loop label => forScope engine label loop
  | .switchScope value cases => switchScope engine value false .undefined none cases
  | .catchScope body => evalBlock engine body
  | .statements (.closure func this args) => callClosureWithThis engine func this args
  | .statements (.program src) => evalProgram engine src
  | .abort => Procedure.call (S := calls) .abort

/-- The evaluation of a call from a state of the context. -/
def run (fuel : ℕ) : Procedure.Handler calls (State σ μ) := Procedure.run (bodies engine) fuel

end Walk

/-! ## An engine for numbers -/

/-- The value of an expression that is a short sequence of digits. -/
def integerLiteral (expr : Bytes) : Option JSValue :=
  if expr.length ≤ 9 then (Cache.digitsValue expr).map fun value => .int (.ofNat value)
  else none

/-- An engine that evaluates integer literals and allocates objects, whose properties
it does not keep.  It serves for runs on fixed texts. -/
def numberEngine : Engine ℕ Unit where
  bits _ := 0
  globalObject := .ptr 0
  evalExpr expr := pure (integerLiteral expr)
  parseLvalue _ := pure none
  newObject := fun heap => .pure (.ptr heap, heap + 1)
  newArray _ := fun heap => .pure (.ptr heap, heap + 1)
  newString _ := fun heap => .pure (.ptr heap, heap + 1)
  getPropertyStr _ _ := pure .undefined
  findPropertyStr _ _ := pure none
  getPropertyUint32 _ _ := pure .undefined
  setPropertyStr _ _ _ := pure ()
  setPropertyUint32 _ _ _ := pure ()
  predeclare _ _ _ := pure ()
  objectClassId _ := pure none
  objectKeys _ := pure none
  stringBytes _ := pure none
  createFunction _ _ := pure none
  currentVarEnv := pure (.ptr 0)
  throwSyntaxError := fun heap => .call (.setException (.ptr heap)) fun _ =>
    .pure (.exception, heap + 1)
  compileStmts _ _ := pure none
  runModule _ _ := pure .undefined

/-- The state of a new context. -/
def State.new {σ μ : Type} (heap : σ) : State σ μ where
  heap := heap
  exception := .undefined
  envStack := []
  callFrames := []
  loopControl := .none
  returnValue := .undefined
  bodyCache _ := none
  paramCache _ := none
  bytecodeCache _ := none
  scriptCache := (0, [])

end Walker
end Script
end MuonJs
