import MuonJs.Script.Walker

/-!
# The depth of the environment stack

Every evaluator pops what it pushes, but for one kind of exit: when the scope of a
for loop, of a switch or of a catch clause gives nothing, the evaluator returns
through `?` and leaves the environment of the scope on the stack.  The stack grows
by one at each such exit and never otherwise; the call frames are always balanced.
-/

namespace MuonJs
namespace Script
namespace Walker

open Procedure (Completed Meets)
open Cache (Bytes asBytes)

/-- The calls that evaluate what lies in a pushed environment and whose callers pop it
only when they give a value. -/
def Call.isScope : Call → Bool
  | .forScope .. => true
  | .switchScope .. => true
  | .catchScope _ => true
  | _ => false

/-- A scope that gave nothing. -/
def leavesScope (entry : Completed calls) : Bool :=
  entry.request.isScope && (entry.result : Option JSValue).isNone

/-- The number of scopes that gave nothing. -/
def scopesLeft (log : List (Completed calls)) : ℕ := log.countP leavesScope

@[simp] theorem scopesLeft_nil : scopesLeft [] = 0 := rfl

@[simp] theorem scopesLeft_append (first second : List (Completed calls)) :
    scopesLeft (first ++ second) = scopesLeft first + scopesLeft second :=
  List.countP_append

theorem scopesLeft_cons (entry : Completed calls) (log : List (Completed calls)) :
    scopesLeft (entry :: log) = scopesLeft log + if leavesScope entry then 1 else 0 :=
  List.countP_cons

theorem scopesLeft_eq_zero {log : List (Completed calls)} :
    scopesLeft log = 0 ↔ ∀ entry ∈ log, ¬leavesScope entry := List.countP_eq_zero

variable {σ μ α β : Type}

/-- The stacks after, compared with the stacks before: so many environments and call
frames were pushed, and one environment for each scope that gave nothing. -/
def Grown (envs frames : ℕ) (before after : State σ μ) (log : List (Completed calls)) : Prop :=
  after.envStack.length = before.envStack.length + envs + scopesLeft log ∧
    after.callFrames.length = before.callFrames.length + frames

/-- A call leaves the stacks as they were, but for the scopes that gave nothing. -/
def balance : Procedure.Contract calls (State σ μ) :=
  fun request before done log =>
    match request with
    | .abort => False
    | _ => Grown 0 0 before done.2 log

theorem grown_of_balance {request : Call} {before : State σ μ}
    {done : Option JSValue × State σ μ} {log : List (Completed calls)}
    (kept : balance request before done log) : Grown 0 0 before done.2 log := by
  cases request with
  | abort => exact kept.elim
  | _ => exact kept

/-- The part of an evaluation pushes so many environments and call frames. -/
def Grows (envs frames : ℕ) (walk : Walk σ μ α) : Prop :=
  ∀ state, Meets balance (walk state) fun done log => Grown envs frames state done.2 log

/-! ## Parts of an evaluation -/

theorem Grows.bind {envs frames envs' frames' : ℕ}
    {walk : Walk σ μ α} {follow : α → Walk σ μ β}
    (first : Grows envs frames walk) (then' : ∀ value, Grows envs' frames' (follow value)) :
    Grows (envs + envs') (frames + frames') (walk >>= follow) := by
  intro state
  rw [Procedure.bind_apply]
  apply Meets.bind
  apply (first state).mono
  intro done log grown
  apply (then' done.1 done.2).mono
  intro done' log' grown'
  unfold Grown at *
  rw [scopesLeft_append]
  omega

/-- The part of an evaluation leaves the stacks as they are. -/
abbrev Steady (walk : Walk σ μ α) : Prop := Grows 0 0 walk

theorem Steady.bind {walk : Walk σ μ α} {follow : α → Walk σ μ β}
    (first : Steady walk) (then' : ∀ value, Steady (follow value)) :
    Steady (walk >>= follow) := Grows.bind first then'

theorem steady_pure (value : α) : Steady (pure value : Walk σ μ α) := fun _ => ⟨rfl, rfl⟩

theorem Steady.map {walk : Walk σ μ α} (f : α → β) (first : Steady walk) :
    Steady (f <$> walk) := by
  rw [map_eq_pure_bind]
  exact first.bind fun _ => steady_pure _

theorem steady_get : Steady (get : Walk σ μ (State σ μ)) := fun _ => ⟨rfl, rfl⟩

theorem grows_modify {envs frames : ℕ} {change : State σ μ → State σ μ}
    (grows : ∀ state, Grown envs frames state (change state) []) :
    Grows envs frames (modify change : Walk σ μ Unit) := fun state => grows state

theorem steady_call {request : Call} (notScope : request.isScope = false) :
    Steady (Procedure.call (S := calls) request : Walk σ μ (Option JSValue)) := by
  intro state done log kept
  have grown := grown_of_balance kept
  refine ⟨?_, grown.2⟩
  rw [scopesLeft_append, scopesLeft_cons, grown.1, leavesScope, notScope]
  rfl

theorem steady_setLoopControl (control : LoopControl) :
    Steady (setLoopControl control : Walk σ μ Unit) := grows_modify fun _ => ⟨rfl, rfl⟩

theorem steady_setReturnValue (value : JSValue) :
    Steady (setReturnValue value : Walk σ μ Unit) := grows_modify fun _ => ⟨rfl, rfl⟩

theorem steady_setException (value : JSValue) :
    Steady (setException value : Walk σ μ Unit) := grows_modify fun _ => ⟨rfl, rfl⟩

theorem grows_pushEnv (env : JSValue) : Grows 1 0 (pushEnv env : Walk σ μ Unit) :=
  grows_modify fun _ => ⟨rfl, rfl⟩

theorem Steady.follow {envs frames : ℕ} {walk : Walk σ μ α} {follow : α → Walk σ μ β}
    (first : Steady walk) (then' : ∀ value, Grows envs frames (follow value)) :
    Grows envs frames (walk >>= follow) := by
  have both := Grows.bind first then'
  rwa [Nat.zero_add, Nat.zero_add] at both

theorem Grows.steady {envs frames : ℕ} {walk : Walk σ μ α} {follow : α → Walk σ μ β}
    (first : Grows envs frames walk) (then' : ∀ value, Steady (follow value)) :
    Grows envs frames (walk >>= follow) := Grows.bind first then'

/-- What follows a pushed environment and pops it. -/
theorem Grows.popEnv {envs frames : ℕ} {walk : Walk σ μ α} {follow : α → Walk σ μ β}
    (first : Grows (envs + 1) frames walk) (then' : ∀ value, Steady (follow value)) :
    Grows envs frames
      (walk >>= fun value => Walker.popEnv >>= fun _ => follow value) := by
  intro state
  rw [Procedure.bind_apply]
  apply Meets.bind
  apply (first state).mono
  intro done log grown
  apply (then' done.1 _).mono
  intro done' log' grown'
  unfold Grown at *
  dsimp only at grown'
  rw [List.length_tail] at grown'
  rw [scopesLeft_append]
  omega

/-- A scope in an environment that its evaluator pushes. -/
theorem Grows.leaveScope {walk : Walk σ μ α} (enters : Grows 1 0 walk) {request : Call}
    (isScope : request.isScope) :
    Steady (walk >>= fun _ =>
      Procedure.call (S := calls) request >>= fun result => leaveScope result) := by
  intro state
  rw [Procedure.bind_apply]
  apply Meets.bind
  apply (enters state).mono
  intro entered log grown done inner kept
  have depth := grown.1
  have depth' := (grown_of_balance kept).1
  have frames := (grown_of_balance kept).2.trans (congrArg (· + 0) grown.2)
  obtain ⟨result, after⟩ := done
  cases result with
  | none =>
      have isLeft : leavesScope ⟨request, none⟩ := by rw [leavesScope, isScope]; rfl
      refine ⟨?_, frames⟩
      rw [scopesLeft_append, scopesLeft_append, scopesLeft_cons, if_pos isLeft, scopesLeft_nil]
      dsimp only at depth' ⊢
      omega
  | some last =>
      have isNotLeft : ¬leavesScope ⟨request, some last⟩ := by
        rw [leavesScope, isScope]
        exact Bool.false_ne_true
      refine ⟨?_, frames⟩
      rw [scopesLeft_append, scopesLeft_append, scopesLeft_cons, if_neg isNotLeft,
        scopesLeft_nil]
      dsimp only at depth' ⊢
      rw [List.length_tail]
      omega

/-! ## Operations of the engine -/

theorem steady_carryOutProgram (program : Program (engineCalls σ) (α × σ)) :
    Steady (carryOutProgram (S := calls) callStatements program : Walk σ μ α) := by
  induction program with
  | pure done => exact fun _ => ⟨rfl, rfl⟩
  | call request next ih =>
      cases request with
      | scopes => exact fun state => ih _ state
      | getException => exact fun state => ih _ state
      | setException value => exact fun state => ih () { state with exception := value }
      | updateCallFrameSlot env name value =>
          intro state
          have met := ih ()
            { state with callFrames := updateCallFrameSlot env name value state.callFrames }
          apply met.mono
          intro done log grown
          exact ⟨grown.1, grown.2.trans
            (congrArg (· + 0) (length_updateCallFrameSlot env name value _))⟩
      | statements request heap =>
          intro state
          apply Meets.bind
          have called : Steady (Procedure.call (S := calls) (.statements request) :
              Walk σ μ (Option JSValue)) := steady_call rfl
          apply (called { state with heap }).mono
          intro done log grown
          apply (ih (done.1, done.2.heap) done.2).mono
          intro done' log' grown'
          unfold Grown at *
          rw [scopesLeft_append]
          dsimp only at *
          omega

variable (engine : Engine σ μ)

theorem steady_carryOut (operation : Operation σ α) :
    Steady (carryOut (S := calls) callStatements operation : Walk σ μ α) :=
  fun state => steady_carryOutProgram (operation state.heap) state

theorem steady_evalExpr (expr : Bytes) : Steady (evalExpr engine expr) := steady_carryOut _

theorem steady_evalUnlessEmpty (expr : Bytes) (otherwise : JSValue) :
    Steady (evalUnlessEmpty engine expr otherwise) := by
  unfold evalUnlessEmpty
  split
  · exact steady_pure _
  · exact steady_evalExpr engine expr

theorem steady_currentEnv : Steady (currentEnv engine : Walk σ μ JSValue) :=
  steady_get.bind fun _ => steady_pure _

theorem grows_enterScope :
    Grows 1 0 (enterScope engine callStatements : Walk σ μ JSValue) := by
  apply (steady_currentEnv engine).follow
  intro parent
  apply (steady_carryOut _).follow
  intro env
  apply (steady_carryOut _).follow
  intro _
  exact (grows_pushEnv env).steady fun _ => steady_pure env

theorem grows_enterBlock :
    Grows 1 0 (enterBlock engine callStatements : Walk σ μ Unit) := by
  apply (steady_currentEnv engine).follow
  intro parent
  apply (steady_carryOut _).follow
  intro env
  apply (steady_carryOut _).follow
  intro _
  apply (steady_carryOut _).follow
  intro _
  exact grows_pushEnv env

theorem grows_enterCatch (param : Option Bytes) :
    Grows 1 0 (enterCatch engine callStatements param : Walk σ μ Unit) := by
  apply steady_get.follow
  intro state
  unfold bindThrown
  apply (steady_setException _).follow
  intro _
  apply (grows_enterScope engine).steady
  intro env
  cases param with
  | none => exact steady_pure _
  | some name => exact steady_carryOut _

theorem steady_predeclareIn (env : JSValue) (names : List (Bytes × Bool)) :
    Steady (predeclareIn engine callStatements env names : Walk σ μ Unit) := by
  induction names with
  | nil => exact steady_pure _
  | cons name rest ih => exact (steady_carryOut _).bind fun _ => ih

theorem steady_predeclareBlockBindings (stmts : List Bytes) :
    Steady (predeclareBlockBindings engine callStatements stmts : Walk σ μ Unit) :=
  (steady_currentEnv engine).bind fun env => steady_predeclareIn engine env _

theorem steady_parseFunctionDeclaration (src : Bytes) :
    Steady (parseFunctionDeclaration engine callStatements src : Walk σ μ _) := by
  unfold parseFunctionDeclaration
  split
  · exact steady_pure _
  · apply (steady_carryOut _).bind
    intro func
    cases func with
    | none => exact steady_pure _
    | some func =>
        apply (steady_currentEnv engine).bind
        intro env
        exact (steady_carryOut _).bind fun _ => steady_pure _

theorem steady_getObjectKeys (obj : JSValue) :
    Steady (getObjectKeys engine callStatements obj : Walk σ μ _) := by
  apply (steady_carryOut _).bind
  intro classId
  split
  · apply (steady_carryOut _).bind
    intro len
    split <;> exact steady_pure _
  · exact steady_carryOut _

theorem steady_forOfLength (iterable : JSValue) :
    Steady (forOfLength engine callStatements iterable : Walk σ μ _) := by
  apply (steady_carryOut _).bind
  intro classId
  split
  · apply (steady_carryOut _).bind
    intro len
    split <;> exact steady_pure _
  · exact steady_pure _

theorem steady_loopVarEnv (kind : Option DeclKind) :
    Steady (loopVarEnv engine callStatements kind : Walk σ μ JSValue) := by
  unfold loopVarEnv
  split
  · exact steady_carryOut _
  · exact steady_currentEnv engine

theorem steady_assignKey (kind : Option DeclKind) (target : Bytes) (env : JSValue)
    (key : Bytes) : Steady (assignKey engine callStatements kind target env key : Walk σ μ _) := by
  apply (steady_carryOut _).bind
  intro keyVal
  split
  · exact (steady_carryOut _).bind fun _ => steady_pure _
  · apply (steady_carryOut _).bind
    intro found
    split
    · exact steady_pure _
    · exact (steady_carryOut _).bind fun _ => steady_pure _
    · exact (steady_carryOut _).bind fun _ => steady_pure _

/-! ## Calling a closure -/

theorem steady_cachedParams (paramsVal : JSValue) :
    Steady (cachedParams engine callStatements paramsVal : Walk σ μ _) := by
  apply steady_get.bind
  intro state
  split
  · exact steady_pure _
  · apply (steady_carryOut _).bind
    intro bytes
    exact Steady.bind (grows_modify fun _ => ⟨rfl, rfl⟩) fun _ => steady_pure _

theorem steady_cachedBody (bodyVal : JSValue) :
    Steady (cachedBody engine callStatements bodyVal : Walk σ μ _) := by
  apply steady_get.bind
  intro state
  split
  · exact steady_pure _
  · apply (steady_carryOut _).bind
    intro bytes
    cases bytes with
    | none => exact steady_pure _
    | some bytes =>
        dsimp only
        split
        · exact Steady.bind (grows_modify fun _ => ⟨rfl, rfl⟩) fun _ => steady_pure _
        · exact steady_pure _

theorem steady_functionName (func : JSValue) :
    Steady (functionName engine callStatements func : Walk σ μ _) := by
  apply (steady_carryOut _).bind
  intro nameVal
  split
  · exact steady_pure _
  · exact (steady_carryOut _).bind fun _ => steady_pure _

theorem steady_fillArray (array : JSValue) (index : ℕ) (args : List JSValue) :
    Steady (fillArray engine callStatements array index args : Walk σ μ Unit) := by
  induction args generalizing index with
  | nil => exact steady_pure _
  | cons value rest ih => exact (steady_carryOut _).bind fun _ => ih (index + 1)

theorem steady_bindArguments (env : JSValue) (args : List JSValue) :
    Steady (bindArguments engine callStatements env args : Walk σ μ Unit) := by
  apply (steady_carryOut _).bind
  intro array
  split
  · exact (steady_fillArray engine array 0 args).bind fun _ => steady_carryOut _
  · exact steady_pure _

theorem steady_paramValue (spec : CachedParamSpec) (given : JSValue) :
    Steady (paramValue engine callStatements spec given : Walk σ μ JSValue) := by
  unfold paramValue
  split
  · exact (steady_carryOut _).map _
  · exact steady_pure _

theorem steady_bindParams (env : JSValue) (args : List JSValue) (index : ℕ)
    (specs : List CachedParamSpec) :
    Steady (bindParams engine callStatements env args index specs : Walk σ μ Bool) := by
  induction specs generalizing index with
  | nil => exact steady_pure _
  | cons spec specs ih =>
      rw [bindParams]
      split
      · split
        · exact steady_pure _
        · apply (steady_carryOut _).bind
          intro array
          apply (steady_fillArray engine array 0 _).bind
          intro _
          exact (steady_carryOut _).bind fun _ => steady_pure _
      · apply (steady_paramValue engine spec _).bind
        intro value
        exact (steady_carryOut _).bind fun _ => ih (index + 1)

theorem steady_runCompiled (key : UInt64) (params stmts : List Bytes)
    (args : List JSValue) :
    Steady (runCompiled engine callStatements key params stmts args : Walk σ μ _) := by
  apply steady_get.bind
  intro state
  split
  · exact (steady_carryOut _).map _
  · exact steady_pure _
  · apply (steady_carryOut _).bind
    intro module
    cases module with
    | none => exact Steady.bind (grows_modify fun _ => ⟨rfl, rfl⟩) fun _ => steady_pure _
    | some module =>
        apply (steady_carryOut _).bind
        intro result
        exact Steady.bind (grows_modify fun _ => ⟨rfl, rfl⟩) fun _ => steady_pure _

theorem steady_bindName (env func : JSValue) (name : Option Bytes) :
    Steady (bindName engine callStatements env func name : Walk σ μ Unit) := by
  cases name with
  | none => exact steady_pure _
  | some name => exact steady_carryOut _

theorem steady_closureText (func : JSValue) :
    Steady (closureText engine callStatements func : Walk σ μ _) := by
  apply (steady_carryOut _).bind
  intro paramsVal
  apply (steady_carryOut _).bind
  intro bodyVal
  apply (steady_cachedParams engine paramsVal).bind
  intro specs
  exact (steady_cachedBody engine bodyVal).bind fun _ => steady_pure _

theorem grows_pushClosure (func this : JSValue) :
    Grows 1 1 (pushClosure engine callStatements func this : Walk σ μ _) := by
  have pushesFrame : ∀ env, Grows 0 1
      (modify fun state => { state with callFrames := ⟨fun _ => none, env⟩ :: state.callFrames } :
        Walk σ μ Unit) := fun env => grows_modify fun _ => ⟨rfl, rfl⟩
  apply (steady_carryOut _).follow
  intro parentEnv
  apply (steady_carryOut _).follow
  intro env
  apply (steady_carryOut _).follow
  intro _
  apply (steady_carryOut _).follow
  intro _
  show Grows (0 + 1) (1 + 0) _
  apply (pushesFrame env).bind
  intro _
  apply (steady_carryOut _).follow
  intro _
  exact (grows_pushEnv env).steady fun _ => steady_pure _

theorem grows_openClosure (func this : JSValue) (args : List JSValue)
    (specs : List CachedParamSpec) (stmts : List Bytes) (key : UInt64) :
    Grows 1 1 (openClosure engine callStatements func this args specs stmts key :
      Walk σ μ Opened) := by
  apply (steady_functionName engine func).follow
  intro name
  apply (grows_pushClosure engine func this).steady
  rintro ⟨env, parentEnv⟩
  apply (steady_predeclareBlockBindings engine stmts).bind
  intro _
  apply (steady_bindName engine env func name).bind
  intro _
  apply (steady_bindArguments engine env args).bind
  intro _
  apply (steady_bindParams engine env args 0 specs).bind
  intro bound
  split
  · split
    · apply (steady_runCompiled engine key _ stmts args).bind
      intro result
      cases result <;> exact steady_pure _
    · exact steady_pure _
  · exact steady_pure _

/-- The part of an evaluation pops an environment and a call frame. -/
def Closes (walk : Walk σ μ α) : Prop :=
  ∀ state, 0 < state.envStack.length → 0 < state.callFrames.length →
    Meets balance (walk state) fun done log =>
      done.2.envStack.length + 1 = state.envStack.length + scopesLeft log ∧
        done.2.callFrames.length + 1 = state.callFrames.length

theorem Grows.closes {walk : Walk σ μ α} {follow : α → Walk σ μ β}
    (first : Grows 1 1 walk) (then' : ∀ value, Closes (follow value)) :
    Steady (walk >>= follow) := by
  intro state
  rw [Procedure.bind_apply]
  apply Meets.bind
  apply (first state).mono
  intro done log grown
  have hasEnv : 0 < done.2.envStack.length := by rw [grown.1]; omega
  have hasFrame : 0 < done.2.callFrames.length := by rw [grown.2]; omega
  apply (then' done.1 done.2 hasEnv hasFrame).mono
  intro done' log' closed
  unfold Grown at *
  rw [scopesLeft_append]
  omega

theorem Steady.closes {walk : Walk σ μ α} {follow : α → Walk σ μ β}
    (first : Steady walk) (then' : ∀ value, Closes (follow value)) :
    Closes (walk >>= follow) := by
  intro state hasEnv hasFrame
  rw [Procedure.bind_apply]
  apply Meets.bind
  apply (first state).mono
  intro done log grown
  have hasEnv' : 0 < done.2.envStack.length := by rw [grown.1]; omega
  have hasFrame' : 0 < done.2.callFrames.length := by rw [grown.2]; omega
  apply (then' done.1 done.2 hasEnv' hasFrame').mono
  intro done' log' closed
  unfold Grown at grown
  rw [scopesLeft_append]
  omega

theorem closes_leaveClosure (result : Option JSValue) :
    Closes (leaveClosure >>= fun _ => pure result : Walk σ μ (Option JSValue)) := by
  intro state hasEnv hasFrame
  refine ⟨?_, ?_⟩
  · show state.envStack.tail.length + 1 = _
    rw [List.length_tail, scopesLeft_nil]
    omega
  · show state.callFrames.tail.length + 1 = _
    rw [List.length_tail]
    omega

theorem closes_abort :
    Closes (Procedure.call (S := calls) .abort : Walk σ μ (Option JSValue)) :=
  fun _ _ _ _ _ returns => returns.elim

theorem steady_callClosureWithThis (func this : JSValue) (args : List JSValue) :
    Steady (callClosureWithThis engine func this args) := by
  apply (steady_closureText engine func).bind
  intro text
  split
  · exact steady_pure _
  · apply (grows_openClosure engine func this args _ _ _).closes
    intro opened
    cases opened with
    | aborted => exact closes_abort
    | ran result => exact closes_leaveClosure _
    | walk stmts => exact (steady_call rfl).closes closes_leaveClosure

/-! ## Statements -/

theorem steady_evalBranch (branch : Branch) :
    Steady (evalBranch branch : Walk σ μ (Option JSValue)) := by
  unfold evalBranch
  split <;> exact steady_call rfl

theorem steady_evalLoopBody (body : LoopBody) :
    Steady (evalLoopBody body : Walk σ μ (Option JSValue)) := by
  unfold evalLoopBody
  split
  · split <;> exact steady_call rfl
  · exact steady_evalBranch _

theorem steady_heedLoopControl (label : Option Bytes) :
    Steady (heedLoopControl label : Walk σ μ Bool) := by
  have clears : ∀ goesOn, Steady
      (setLoopControl .none >>= fun _ => pure goesOn : Walk σ μ Bool) := fun goesOn =>
    (steady_setLoopControl _).bind fun _ => steady_pure goesOn
  apply steady_get.bind
  intro state
  split
  · exact clears false
  · split
    · exact clears false
    · exact steady_pure _
  · exact clears true
  · split
    · exact clears true
    · exact steady_pure _
  · exact steady_pure _
  · exact steady_pure _

theorem steady_endTurn (label : Option Bytes) {goOn : JSValue → Walk σ μ (Option JSValue)}
    (goesOn : ∀ last, Steady (goOn last)) (result : Option JSValue) :
    Steady (endTurn label goOn result) := by
  cases result with
  | none => exact steady_pure _
  | some last =>
      apply (steady_heedLoopControl label).bind
      intro more
      split
      · exact goesOn last
      · exact steady_pure _

theorem steady_clearBreakLabel (label : Bytes) :
    Steady (clearBreakLabel label : Walk σ μ Unit) := grows_modify fun _ => ⟨rfl, rfl⟩

theorem steady_parseIfStatement (src : Bytes) : Steady (parseIfStatement engine src) := by
  unfold parseIfStatement
  split
  · exact steady_pure _
  · apply (steady_evalExpr engine _).bind
    intro cond
    cases cond with
    | none => exact steady_pure _
    | some condVal =>
        dsimp only
        split
        · exact steady_pure _
        · apply (steady_evalBranch _).bind
          intro result
          cases result with
          | none => exact steady_pure _
          | some result =>
              apply steady_get.bind
              intro state
              split <;> exact steady_pure _

theorem steady_whileTurns (condition : Bytes) (body : LoopBody) (label : Option Bytes)
    (last : JSValue) : Steady (whileTurns engine condition body label last) := by
  apply (steady_evalExpr engine _).bind
  intro cond
  cases cond with
  | none => exact steady_pure _
  | some condVal =>
      dsimp only
      split
      · exact (steady_evalLoopBody body).bind (steady_endTurn label fun _ => steady_call rfl)
      · exact steady_pure _

theorem steady_parseWhileLoop (src : Bytes) (label : Option Bytes) :
    Steady (parseWhileLoop src label : Walk σ μ (Option JSValue)) := by
  unfold parseWhileLoop
  split
  · exact steady_pure _
  · exact steady_call rfl

theorem steady_doTurns (condition : Bytes) (body : LoopBody) (label : Option Bytes)
    (last : JSValue) : Steady (doTurns engine condition body label last) := by
  apply (steady_evalExpr engine _).bind
  intro cond
  cases cond with
  | none => exact steady_pure _
  | some condVal =>
      dsimp only
      split
      · exact (steady_evalLoopBody body).bind (steady_endTurn label fun _ => steady_call rfl)
      · exact steady_pure _

theorem steady_parseDoWhileLoop (src : Bytes) (label : Option Bytes) :
    Steady (parseDoWhileLoop src label : Walk σ μ (Option JSValue)) := by
  unfold parseDoWhileLoop
  split
  · exact steady_pure _
  · exact (steady_evalLoopBody _).bind (steady_endTurn label fun _ => steady_call rfl)

theorem steady_forTurns (condition update : Bytes) (body : LoopBody)
    (label : Option Bytes) (last : JSValue) :
    Steady (forTurns engine condition update body label last) := by
  apply (steady_evalUnlessEmpty engine _ _).bind
  intro cond
  cases cond with
  | none => exact steady_pure _
  | some condVal =>
      dsimp only
      split
      · refine (steady_evalLoopBody body).bind (steady_endTurn label fun last => ?_)
        apply (steady_evalUnlessEmpty engine _ _).bind
        intro updated
        cases updated with
        | none => exact steady_pure _
        | some _ => exact steady_call rfl
      · exact steady_pure _

theorem steady_forInTurns (kind : Option DeclKind) (target : Bytes) (body : LoopBody)
    (label : Option Bytes) (env last : JSValue) (keys : List Bytes) :
    Steady (forInTurns engine kind target body label env last keys) := by
  induction keys generalizing last with
  | nil => exact steady_pure _
  | cons key keys ih =>
      apply (steady_assignKey engine kind target env key).bind
      intro assigned
      cases assigned with
      | none => exact steady_pure _
      | some _ => exact (steady_evalLoopBody body).bind (steady_endTurn label ih)

theorem steady_forOfTurns (name : Bytes) (iterable : JSValue) (body : LoopBody)
    (label : Option Bytes) (env last : JSValue) (indices : List ℕ) :
    Steady (forOfTurns engine name iterable body label env last indices) := by
  induction indices generalizing last with
  | nil => exact steady_pure _
  | cons index indices ih =>
      apply (steady_carryOut _).bind
      intro elem
      apply (steady_carryOut _).bind
      intro _
      exact (steady_evalLoopBody body).bind (steady_endTurn label ih)

theorem steady_forScope (label : Option Bytes) (loop : ForLoop) :
    Steady (forScope engine label loop) := by
  cases loop with
  | cStyle init condition update body =>
      apply (steady_evalUnlessEmpty engine _ _).bind
      intro initialised
      cases initialised with
      | none => exact steady_pure _
      | some _ => exact steady_call rfl
  | forIn kind target objExpr body =>
      apply (steady_evalExpr engine _).bind
      intro obj
      cases obj with
      | none => exact steady_pure _
      | some obj =>
          apply (steady_getObjectKeys engine obj).bind
          intro keys
          cases keys with
          | none => exact steady_pure _
          | some keys =>
              apply (steady_loopVarEnv engine kind).bind
              intro env
              split
              · exact steady_pure _
              · exact steady_forInTurns engine kind target body label env _ keys
  | forOf kind name iterExpr body =>
      apply (steady_evalExpr engine _).bind
      intro iterable
      cases iterable with
      | none => exact steady_pure _
      | some iterable =>
          apply (steady_forOfLength engine iterable).bind
          intro len
          cases len with
          | none => exact steady_pure _
          | some len =>
              apply (steady_loopVarEnv engine kind).bind
              intro env
              exact steady_forOfTurns engine name iterable body label env _ _

theorem steady_parseForLoop (src : Bytes) (label : Option Bytes) :
    Steady (parseForLoop engine src label) := by
  unfold parseForLoop
  split
  · exact steady_pure _
  · exact (grows_enterBlock engine).leaveScope rfl

theorem steady_runCatch (param : Option Bytes) (body : Bytes) :
    Steady (runCatch engine param body) := (grows_enterCatch engine param).leaveScope rfl

theorem steady_afterTry (catchClause : Option (Option Bytes × Bytes))
    (tried : Option JSValue) : Steady (afterTry engine catchClause tried) := by
  unfold afterTry
  split
  · split
    · exact steady_runCatch engine _ _
    · exact steady_pure _
  · exact steady_pure _

theorem steady_restoreException (saved : JSValue) :
    Steady (restoreException saved : Walk σ μ Unit) := by
  unfold restoreException
  split
  · exact steady_pure _
  · exact steady_setException _

theorem steady_runFinally (body : Bytes) (result : JSValue) :
    Steady (runFinally body result : Walk σ μ (Option JSValue)) := by
  apply steady_get.bind
  intro state
  apply (steady_call rfl).bind
  intro finallyVal
  cases finallyVal with
  | none => exact steady_pure _
  | some finallyVal =>
      dsimp only
      split
      · exact steady_pure _
      · exact (steady_restoreException _).bind fun _ => steady_pure _

theorem steady_parseTryCatch (src : Bytes) : Steady (parseTryCatch engine src) := by
  unfold parseTryCatch
  split
  · exact steady_pure _
  · apply (steady_call rfl).bind
    intro tried
    apply (steady_afterTry engine _ tried).bind
    intro result
    split
    · exact steady_runFinally _ _
    · exact steady_pure _

theorem steady_evalCaseBody (body : Bytes) :
    Steady (evalCaseBody body : Walk σ μ (Option (JSValue × Bool))) := by
  apply (steady_call rfl).bind
  intro result
  cases result with
  | none => exact steady_pure _
  | some last =>
      apply steady_get.bind
      intro state
      split
      · exact (steady_setLoopControl _).bind fun _ => steady_pure _
      · exact steady_pure _

theorem steady_switchScope (value : JSValue) (matched : Bool) (last : JSValue)
    (foundDefault : Option Bytes) (cases : List SwitchCase) :
    Steady (switchScope engine value matched last foundDefault cases) := by
  induction cases generalizing matched last foundDefault with
  | nil =>
      cases matched with
      | true => exact steady_pure _
      | false =>
          cases foundDefault with
          | none => exact steady_pure _
          | some body =>
              apply (steady_evalCaseBody body).bind
              intro result
              split <;> exact steady_pure _
  | cons clause cases ih =>
      obtain ⟨expr, body⟩ := clause
      cases matched with
      | true =>
          apply (steady_evalCaseBody body).bind
          intro result
          split
          · exact steady_pure _
          · exact steady_pure _
          · exact ih _ _ _
      | false =>
          cases expr with
          | none =>
              rw [switchScope]
              exact ih _ _ _
          | some expr =>
              rw [switchScope]
              apply (steady_evalExpr engine expr).bind
              intro caseVal
              cases caseVal with
              | none => exact steady_pure _
              | some caseVal =>
                  dsimp only
                  split
                  · apply (steady_evalCaseBody body).bind
                    intro result
                    split
                    · exact steady_pure _
                    · exact steady_pure _
                    · exact ih _ _ _
                  · exact ih _ _ _

theorem steady_parseSwitchStatement (src : Bytes) :
    Steady (parseSwitchStatement engine src) := by
  unfold parseSwitchStatement
  split
  · exact steady_pure _
  · apply (steady_evalExpr engine _).bind
    intro value
    cases value with
    | none => exact steady_pure _
    | some value =>
        dsimp only
        split
        · exact steady_pure _
        · exact (grows_enterBlock engine).leaveScope rfl

theorem steady_parseLabeledStatement (label : Bytes) (statement : Labeled) :
    Steady (parseLabeledStatement engine label statement) := by
  cases statement with
  | block | other =>
      apply (steady_call rfl).bind
      intro result
      exact (steady_clearBreakLabel label).bind fun _ => steady_pure _
  | forLoop src => exact steady_parseForLoop engine src _
  | whileLoop src => exact steady_parseWhileLoop src _
  | doWhile src => exact steady_parseDoWhileLoop src _

theorem steady_afterCompound (result : Option JSValue) :
    Steady (afterCompound result : Walk σ μ Step) := by
  cases result with
  | none => exact steady_pure _
  | some last =>
      apply steady_get.bind
      intro state
      split <;> exact steady_pure _

theorem steady_jump (control : LoopControl) (result : JSValue) :
    Steady (jump control result : Walk σ μ Step) :=
  (steady_setLoopControl control).bind fun _ => steady_pure _

theorem steady_throwValue (value : JSValue) :
    Steady (throwValue value : Walk σ μ Step) :=
  (steady_setException value).bind fun _ => steady_pure _

theorem steady_evalStatement (text : Bytes) (form : StatementForm) :
    Steady (evalStatement engine text form) := by
  cases form with
  | breakTo label => cases label <;> exact steady_jump _ _
  | continueTo label => cases label <;> exact steady_jump _ _
  | returnOf operand =>
      cases operand with
      | none => exact (steady_setReturnValue _).bind fun _ => steady_jump _ _
      | some operand =>
          apply (steady_evalExpr engine operand).bind
          intro value
          cases value with
          | none => exact steady_pure _
          | some value => exact (steady_setReturnValue _).bind fun _ => steady_jump _ _
  | throwOf operand =>
      cases operand with
      | none => exact steady_throwValue _
      | some operand =>
          apply (steady_evalExpr engine operand).bind
          intro value
          cases value with
          | none => exact steady_pure _
          | some value => exact steady_throwValue _
  | tryCatch => exact (steady_parseTryCatch engine text).bind steady_afterCompound
  | functionDeclaration =>
      apply (steady_parseFunctionDeclaration engine text).bind
      intro func
      cases func <;> exact steady_pure _
  | labeled label statement =>
      exact (steady_parseLabeledStatement engine label statement).bind steady_afterCompound
  | ifElse => exact (steady_parseIfStatement engine text).bind steady_afterCompound
  | whileLoop => exact (steady_parseWhileLoop text none).bind steady_afterCompound
  | forLoop => exact (steady_parseForLoop engine text none).bind steady_afterCompound
  | doWhile => exact (steady_parseDoWhileLoop text none).bind steady_afterCompound
  | switch => exact (steady_parseSwitchStatement engine text).bind steady_afterCompound
  | block =>
      rw [evalStatement]
      split
      · exact steady_pure _
      · exact (steady_call rfl).bind steady_afterCompound
  | expression =>
      apply (steady_evalExpr engine text).bind
      intro value
      split
      · exact steady_pure _
      · exact steady_pure _
      · exact steady_afterCompound _

theorem steady_evalStatements (form : Bytes → StatementForm) (last : JSValue)
    (stmts : List Bytes) : Steady (evalStatements engine form last stmts) := by
  induction stmts generalizing last with
  | nil => exact steady_pure _
  | cons text rest ih =>
      apply (steady_evalStatement engine text _).bind
      intro step
      cases step with
      | done result => exact steady_pure _
      | next last => exact ih last

theorem steady_evalFunctionBody (body : Bytes) : Steady (evalFunctionBody engine body) := by
  unfold evalFunctionBody
  split
  · exact steady_pure _
  · exact steady_evalStatements engine _ _ _

theorem steady_goOn (result : Option JSValue) : Steady (goOn result : Walk σ μ Step) := by
  cases result <;> exact steady_pure _

theorem steady_evalProgramStatement (text : Bytes) (form : StatementForm) :
    Steady (evalProgramStatement engine text form) := by
  cases form with
  | ifElse => exact (steady_parseIfStatement engine text).bind steady_goOn
  | whileLoop => exact (steady_parseWhileLoop text none).bind steady_goOn
  | forLoop => exact (steady_parseForLoop engine text none).bind steady_goOn
  | doWhile => exact (steady_parseDoWhileLoop text none).bind steady_goOn
  | switch => exact (steady_parseSwitchStatement engine text).bind steady_goOn
  | tryCatch => exact (steady_parseTryCatch engine text).bind steady_goOn
  | expression =>
      apply (steady_evalExpr engine text).bind
      intro value
      split
      · exact steady_pure _
      · exact steady_goOn _
  | breakTo label => exact steady_evalStatement engine text (.breakTo label)
  | continueTo label => exact steady_evalStatement engine text (.continueTo label)
  | returnOf operand => exact steady_evalStatement engine text (.returnOf operand)
  | throwOf operand => exact steady_evalStatement engine text (.throwOf operand)
  | functionDeclaration => exact steady_evalStatement engine text .functionDeclaration
  | labeled label statement => exact steady_evalStatement engine text (.labeled label statement)
  | block => exact steady_evalStatement engine text .block

theorem steady_evalProgramStatements (last : JSValue) (stmts : List Bytes) :
    Steady (evalProgramStatements engine last stmts) := by
  induction stmts generalizing last with
  | nil => exact steady_pure _
  | cons text rest ih =>
      apply (steady_evalProgramStatement engine text _).bind
      intro step
      cases step with
      | done result => exact steady_pure _
      | next last => exact ih last

theorem steady_evalProgram (src : Bytes) : Steady (evalProgram engine src) := by
  unfold evalProgram
  split
  · exact steady_pure _
  · exact steady_pure _
  · exact steady_evalProgramStatements engine _ _

theorem steady_evalBlock (body : Bytes) : Steady (evalBlock engine body) := by
  have pushed : Grows 1 0 (enterBlock engine callStatements >>= fun _ =>
      predeclareBlockBindings engine callStatements ((splitStatements body).getD []) >>= fun _ =>
        Procedure.call (S := calls) (.functionBody body) : Walk σ μ (Option JSValue)) := by
    apply (grows_enterBlock engine).steady
    intro _
    exact (steady_predeclareBlockBindings engine _).bind fun _ => steady_call rfl
  have popped := pushed.popEnv steady_pure
  simp only [bind_assoc] at popped
  exact popped

theorem steady_evalBlockCached (stmts : List Bytes) :
    Steady (evalBlockCached engine stmts) := by
  have pushed : Grows 1 0 (enterBlock engine callStatements >>= fun _ =>
      predeclareBlockBindings engine callStatements stmts >>= fun _ =>
        Procedure.call (S := calls) (.functionBodyCached stmts) :
          Walk σ μ (Option JSValue)) := by
    apply (grows_enterBlock engine).steady
    intro _
    exact (steady_predeclareBlockBindings engine _).bind fun _ => steady_call rfl
  have popped := pushed.popEnv steady_pure
  simp only [bind_assoc] at popped
  exact popped

/-! ## Runs -/

/-- Every evaluator leaves the stacks as they were, but for the scopes that gave
nothing. -/
theorem bodies_balance (request : Call) (state : State σ μ) :
    Meets balance (bodies engine request state) (balance request state) := by
  cases request with
  | block body => exact steady_evalBlock engine body state
  | blockCached stmts => exact steady_evalBlockCached engine stmts state
  | functionBody body => exact steady_evalFunctionBody engine body state
  | functionBodyCached stmts => exact steady_evalStatements engine _ _ _ state
  | whileTurns condition body label last =>
      exact steady_whileTurns engine condition body label last state
  | doTurns condition body label last =>
      exact steady_doTurns engine condition body label last state
  | forTurns condition update body label last =>
      exact steady_forTurns engine condition update body label last state
  | forScope loop label => exact steady_forScope engine label loop state
  | switchScope value cases => exact steady_switchScope engine value _ _ _ cases state
  | catchScope body => exact steady_evalBlock engine body state
  | statements request =>
      cases request with
      | closure func this args => exact steady_callClosureWithThis engine func this args state
      | program src => exact steady_evalProgram engine src state
  | abort => exact fun _ _ returns => returns

theorem run_grown {fuel : ℕ} {request : Call} {state : State σ μ}
    {done : Option JSValue × State σ μ} {log : List (Completed calls)}
    (runs : run engine fuel request state = some (done, log)) :
    Grown 0 0 state done.2 log :=
  grown_of_balance (Procedure.run_meets (bodies_balance engine) runs)

/-- An evaluation leaves the call frames as deep as they were.  It leaves the
environment stack as deep as it was if and only if each scope of a for loop, a switch
or a catch clause that was evaluated in it gave a value. -/
theorem stacks_balanced_iff {fuel : ℕ} {request : Call} {state : State σ μ}
    {done : Option JSValue × State σ μ} {log : List (Completed calls)}
    (runs : run engine fuel request state = some (done, log)) :
    done.2.callFrames.length = state.callFrames.length ∧
      (done.2.envStack.length = state.envStack.length ↔
        ∀ entry ∈ log, ¬leavesScope entry) := by
  have grown := run_grown engine runs
  refine ⟨grown.2, ?_⟩
  rw [← scopesLeft_eq_zero, grown.1]
  omega

/-- A loop over the elements of nothing. -/
theorem stacks_balanced_iff_nothing :
    ∃ done log,
      run numberEngine 3 (.functionBody (asBytes "for (x of  ) \x7b\x7d")) (.new 1) =
          some (done, log) ∧
        done.2.callFrames.length = (State.new 1 : State ℕ Unit).callFrames.length ∧
          (done.2.envStack.length = (State.new 1 : State ℕ Unit).envStack.length ↔
            ∀ entry ∈ log, ¬leavesScope entry) := by
  have returns : (run numberEngine 3 (.functionBody (asBytes "for (x of  ) \x7b\x7d"))
      (.new 1)).isSome := by decide +kernel
  obtain ⟨⟨done, log⟩, runs⟩ := Option.isSome_iff_exists.mp returns
  exact ⟨done, log, runs, stacks_balanced_iff numberEngine runs⟩

/-- The loop leaves its environment on the stack. -/
theorem not_always_balanced :
    ¬∀ (fuel : ℕ) (request : Call) (state : State ℕ Unit)
        (done : Option JSValue × State ℕ Unit) (log : List (Completed calls)),
      run numberEngine fuel request state = some (done, log) →
        done.2.envStack.length = state.envStack.length := by
  intro balanced
  have grows : (run numberEngine 3 (.functionBody (asBytes "for (x of  ) \x7b\x7d"))
      (.new 1)).map (fun run => run.1.2.envStack.length) = some 1 := by decide +kernel
  obtain ⟨⟨done, log⟩, runs, isOne⟩ := Option.map_eq_some_iff.mp grows
  have isZero := balanced _ _ _ _ _ runs
  rw [isOne] at isZero
  exact absurd isZero (by decide)

end Walker
end Script
end MuonJs
