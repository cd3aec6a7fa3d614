import MuonJs.Cache.Sessions

/-!
# Queued execution is direct execution

`EXEC` runs every queued command as it would be run directly.  The direct paths
for the most common commands make the same calls and write the same bytes.
-/

namespace MuonJs
namespace Cache

/-- The client outside a transaction, with this queue. -/
def Client.direct (client : Client engine n) (queued : List (Command × List Bytes)) :
    Client engine n :=
  { client with inMulti := false, queued := queued }

namespace Server

variable {engine : ScriptEngine} {persist : Option Bool} {n : ℕ}

/-- The commands that a transaction queues and that do not end the connection. -/
def Queueable (cmd : Command) : Prop :=
  cmd ∉ [Command.multi, .execQueued, .discard, .quit, .subscribe, .publish]

/-! ## The fast paths -/

/-- What is written for a reply of `runCommand`, and the client after it. -/
def written (outcome : RespValue × Client engine n) : Bytes × Client engine n :=
  (outcome.1.encode, outcome.2)

theorem hset_handler (key field value : Bytes) :
    Handler.handleCommand ⟨none, true⟩ .hset [key, field, value] = (do
      Handler.logAndReply ⟨none, true⟩ .hset [key, field, value] .integer
        (← Handler.hsetLoop key 0 [field, value])) := by
  have onePair : ¬([key, field, value].length < 3 ∨
      [key, field, value].length % 2 = 0) := by
    simp
  exact if_neg onePair

/-- The path of `HSET` for one field. -/
theorem runCommand_hset (client : Client engine n) (key field value : Bytes) :
    runCommand engine none client .hset [key, field, value] = do
      return (Handler.orWrongType .flag (← ServerCall.perform
        (.db client.current (.entry key (.hashSetRef field value)))), client) := by
  have isHandler : runCommand engine none client .hset [key, field, value] = do
      return (← onDb client.current
        (Handler.handleCommand ⟨none, true⟩ .hset [key, field, value]), client) := rfl
  rw [isHandler, hset_handler]
  change @Program.call (ServerCall.signature n) _ _ _ =
    @Program.call (ServerCall.signature n) _ _ _
  congr 1
  funext result
  cases result with
  | ok isNew =>
      cases isNew with
      | true => rfl
      | false => rfl
  | error reason => rfl

/-- The path of `LRANGE`. -/
theorem runCommand_lrange (client : Client engine n) (args : List Bytes) :
    written <$> runCommand engine persist client .lrange args = do
      match ← handleLrangeFast client.current args with
      | .ok items => return (encodeArrayOfBlobs items, client)
      | .error reply => return (reply.encode, client) := by
  have isHandler : runCommand engine persist client .lrange args = do
      return (← onDb client.current
        (Handler.handleCommand ⟨persist, persist.isNone⟩ .lrange args), client) := rfl
  rw [isHandler]
  unfold handleLrangeFast
  split
  · rename_i key start stop rest
    change @Program.call (ServerCall.signature n) _ _ _ =
      @Program.call (ServerCall.signature n) _ _ _
    congr 1
    funext result
    cases result with
    | ok items =>
        exact congrArg (fun bytes => Program.pure (bytes, client))
          (encodeArrayOfBlobs_eq items).symm
    | error reason => rfl
  · rename_i notRange
    rcases args with _ | ⟨key, _ | ⟨start, _ | ⟨stop, rest⟩⟩⟩
    · rfl
    · rfl
    · rfl
    · exact absurd rfl (notRange key start stop rest)

/-- The fast paths write what the commands write. -/
theorem fastPath_written
    {client : Client engine n} {cmd : Command} {args : List Bytes}
    {reply : Session n FastResponse}
    (isFast : fastPath persist client.current cmd args = some reply) :
    (do return ((← reply).encode, client)) =
      written <$> runCommand engine persist client cmd args := by
  unfold fastPath at isFast
  split at isFast
  · split at isFast
    · rename_i noPersist
      obtain rfl := Option.some.inj isFast
      rw [Option.isNone_iff_eq_none.mp noPersist]
      rfl
    · cases isFast
  · obtain rfl := Option.some.inj isFast
    rfl
  · split at isFast
    · rename_i noPersist
      obtain rfl := Option.some.inj isFast
      rw [Option.isNone_iff_eq_none.mp noPersist, runCommand_hset]
      rfl
    · cases isFast
  · obtain rfl := Option.some.inj isFast
    rw [runCommand_lrange, bind_assoc]
    apply bind_congr
    intro result
    cases result with
    | ok items => rfl
    | error reply => rfl
  · cases isFast

/-! ## One command -/

/-- A queueable command outside a transaction is run as from `EXEC`. -/
theorem handleRequest_written
    {client : Client engine n} (direct : client.inMulti = false)
    {cmd : Command} (queueable : Queueable cmd) (args : List Bytes) :
    (fun outcome => (outcome.1.encode, outcome.2)) <$>
        handleRequest engine persist client cmd args =
      written <$> runCommand engine persist client cmd args := by
  simp only [Queueable, List.mem_cons, not_or] at queueable
  obtain ⟨notMulti, notExec, notDiscard, -, notSubscribe, notPublish, -⟩ := queueable
  rw [handleRequest, if_neg notSubscribe, if_neg notPublish,
    if_neg (by rw [direct]; simp), if_neg notMulti, if_neg notDiscard, if_neg notExec]
  split
  · rename_i reply isFast
    rw [← fastPath_written isFast, map_bind]
    rfl
  · rw [map_bind, map_eq_pure_bind]
    rfl

/-- The client of an outcome, outside a transaction and with this queue. -/
def withQueue (queued : List (Command × List Bytes))
    (outcome : RespValue × Client engine n) : RespValue × Client engine n :=
  (outcome.1, outcome.2.direct queued)

theorem handleEvalCommand_direct
    (client : Client engine n) (queued : List (Command × List Bytes))
    (cmd : Command) (args : List Bytes) :
    handleEvalCommand engine persist (client.direct queued) cmd args =
      withQueue queued <$> handleEvalCommand engine persist client cmd args := by
  unfold handleEvalCommand
  rw [map_bind]
  apply bind_congr
  intro prepared
  cases prepared with
  | error reply => rfl
  | ok split =>
      dsimp only
      rw [map_bind]
      rfl

/-- The queue of the client plays no role. -/
theorem runCommand_direct
    (client : Client engine n) (queued : List (Command × List Bytes))
    (cmd : Command) (args : List Bytes) :
    runCommand engine persist (client.direct queued) cmd args =
      withQueue queued <$> runCommand engine persist client cmd args := by
  unfold runCommand
  split
  · rw [map_bind]
    rfl
  · rw [show (client.direct queued).current = client.current from rfl]
    split
    · rw [map_bind]
      rfl
    · split
      · rw [map_bind]
        rfl
      · split
        · exact handleEvalCommand_direct client queued cmd args
        · rw [map_bind]
          rfl

/-! ## Lists of commands -/

/-- The commands of a list, run directly or from `EXEC`, write the same bytes and
leave the same client but for its queue. -/
theorem serve_written
    (client : Client engine n) (queued : List (Command × List Bytes))
    {requests : List (Command × List Bytes)}
    (queueable : ∀ request ∈ requests, Queueable request.1) :
    (fun outcome => (outcome.1.map FastResponse.encode, outcome.2)) <$>
        serve engine persist (client.direct queued) requests =
      (fun outcome => (outcome.1.map RespValue.encode, outcome.2.direct queued)) <$>
        runQueued engine persist client requests := by
  induction requests generalizing client with
  | nil => rfl
  | cons request requests ih =>
      obtain ⟨cmd, args⟩ := request
      rw [List.forall_mem_cons] at queueable
      have first := @handleRequest_written engine persist n (client.direct queued) rfl
        cmd queueable.1 args
      rw [runCommand_direct] at first
      have afterReply (bytes : Bytes) (client : Client engine n) :
          (fun outcome => (bytes :: outcome.1.map FastResponse.encode, outcome.2)) <$>
              serve engine persist (client.direct queued) requests =
            (fun outcome =>
              (bytes :: outcome.1.map RespValue.encode, outcome.2.direct queued)) <$>
              runQueued engine persist client requests := by
        have rest := congrArg (fun session =>
          (fun outcome : List Bytes × Client engine n =>
            (bytes :: outcome.1, outcome.2)) <$> session) (ih client queueable.2)
        rw [← comp_map, ← comp_map] at rest
        exact rest
      calc
        _ = ((fun outcome => (outcome.1.encode, outcome.2)) <$>
              handleRequest engine persist (client.direct queued) cmd args) >>=
            fun (bytes, client) =>
              (fun outcome =>
                (bytes :: outcome.1.map FastResponse.encode, outcome.2)) <$>
                serve engine persist client requests := by
          rw [serve, map_bind, bind_map_left]
          apply bind_congr
          intro outcome
          rw [map_bind]
          dsimp only
          rw [map_eq_pure_bind]
          rfl
        _ = runCommand engine persist client cmd args >>= fun (reply, client) =>
              (fun outcome =>
                (reply.encode :: outcome.1.map FastResponse.encode, outcome.2)) <$>
                serve engine persist (client.direct queued) requests := by
          rw [first, bind_map_left, bind_map_left]
          rfl
        _ = runCommand engine persist client cmd args >>= fun (reply, client) =>
              (fun outcome =>
                (reply.encode :: outcome.1.map RespValue.encode,
                  outcome.2.direct queued)) <$>
                runQueued engine persist client requests := by
          apply bind_congr
          intro outcome
          exact afterReply outcome.1.encode outcome.2
        _ = _ := by
          rw [runQueued, map_bind]
          apply bind_congr
          intro outcome
          rw [map_bind]
          dsimp only
          rw [map_eq_pure_bind]
          rfl

/-- `MULTI` begins the queue. -/
theorem serve_multi
    {client : Client engine n} (direct : client.inMulti = false)
    (args : List Bytes) (requests : List (Command × List Bytes)) :
    serve engine persist client ((.multi, args) :: requests) =
      (fun outcome => (.value .ok :: outcome.1, outcome.2)) <$>
        serve engine persist { client with inMulti := true, queued := [] } requests := by
  rw [serve, handleRequest, if_neg (by decide), if_neg (by decide),
    if_neg (by rw [direct]; simp), if_pos rfl, if_neg (by rw [direct]; decide),
    map_eq_pure_bind]
  rfl

/-- The commands are queued, and `EXEC` runs them. -/
theorem serve_exec
    {client : Client engine n} (isMulti : client.inMulti = true)
    {requests : List (Command × List Bytes)}
    (queueable : ∀ request ∈ requests, Queueable request.1) (args : List Bytes) :
    serve engine persist client (requests ++ [(.execQueued, args)]) =
      (fun outcome => (requests.map (fun _ => .value (.simple "QUEUED")) ++
        [.value (.array outcome.1)], outcome.2)) <$>
        runQueued engine persist (client.direct []) (client.queued ++ requests) := by
  induction requests generalizing client with
  | nil =>
      rw [List.nil_append, List.append_nil, serve, handleRequest, if_neg (by decide),
        if_neg (by decide), if_neg (by simp), if_neg (by decide), if_neg (by decide),
        if_pos rfl, if_pos isMulti, bind_assoc, map_eq_pure_bind]
      rfl
  | cons request requests ih =>
      obtain ⟨cmd, args'⟩ := request
      rw [List.forall_mem_cons] at queueable
      obtain ⟨isQueueable, restQueueable⟩ := queueable
      simp only [Queueable, List.mem_cons, not_or] at isQueueable
      obtain ⟨notMulti, notExec, notDiscard, -, notSubscribe, notPublish, -⟩ :=
        isQueueable
      have rest := @ih { client with queued := client.queued ++ [(cmd, args')] }
        isMulti restQueueable
      rw [List.cons_append, serve, handleRequest, if_neg notSubscribe,
        if_neg notPublish, if_pos ⟨isMulti, notExec, notDiscard, notMulti⟩, pure_bind]
      dsimp only
      rw [rest, bind_map_left, List.append_assoc, map_eq_pure_bind]
      rfl

/-- The outcome of `MULTI`, the commands and `EXEC` against that of the commands:
the items of the last reply are written as the direct replies are, and the
selected database and the state of the server are the same; or the process ends
in both. -/
def SameOutcome (requests : List (Command × List Bytes)) :
    Option ((List FastResponse × Client engine n) × ServerState n × ℕ) →
      Option ((List FastResponse × Client engine n) × ServerState n × ℕ) → Prop
  | some ((replies, client), state), some ((direct, client'), state') =>
      (∃ items, replies = .value .ok ::
          (requests.map (fun _ => .value (.simple "QUEUED")) ++
            [.value (.array items)]) ∧
        items.map RespValue.encode = direct.map FastResponse.encode) ∧
      client.current = client'.current ∧ state = state'
  | none, none => True
  | _, _ => False

/-- Queued execution equals direct execution. -/
theorem queued_eq_direct
    (clock : ℕ → Moment) (client : Client engine n) (direct : client.inMulti = false)
    (requests : List (Command × List Bytes))
    (queueable : ∀ request ∈ requests, Queueable request.1)
    (multiArgs execArgs : List Bytes) (state : ServerState n × ℕ) :
    SameOutcome requests
      (Session.run clock (serve engine persist client
        ((.multi, multiArgs) :: (requests ++ [(.execQueued, execArgs)]))) state)
      (Session.run clock (serve engine persist client requests) state) := by
  have sameClient : (client.direct []).direct client.queued = client := by
    rw [Client.direct, Client.direct, ← direct]
  have written := @serve_written engine persist n (client.direct []) client.queued
    requests queueable
  rw [sameClient] at written
  have sameRun := congrArg (Session.run clock · state) written
  rw [Session.run_map, Session.run_map] at sameRun
  rw [serve_multi direct, @serve_exec engine persist n
    { client with inMulti := true, queued := [] } rfl requests queueable execArgs,
    List.nil_append, Session.run_map, Session.run_map,
    show Client.direct { client with inMulti := true, queued := [] } [] =
      client.direct [] from rfl]
  generalize Session.run clock (runQueued engine persist (client.direct []) requests)
    state = queued at sameRun
  generalize Session.run clock (serve engine persist client requests) state =
    directly at sameRun
  cases queued with
  | none =>
      cases directly with
      | none => trivial
      | some outcome => cases sameRun
  | some outcome =>
      cases directly with
      | none => cases sameRun
      | some outcome' =>
          obtain ⟨⟨items, after⟩, last⟩ := outcome
          obtain ⟨⟨replies, after'⟩, last'⟩ := outcome'
          rw [Option.map_some, Option.map_some, Option.some.injEq, Prod.mk.injEq,
            Prod.mk.injEq] at sameRun
          obtain ⟨⟨sameReplies, sameAfter⟩, sameLast⟩ := sameRun
          refine ⟨⟨items, rfl, sameReplies.symm⟩, ?_, sameLast.symm⟩
          dsimp only at sameAfter
          rw [sameAfter]
          rfl

/-- `SELECT`, `SET` and `GET`, queued and directly. -/
theorem queued_eq_direct_select :
    SameOutcome [(.select, [asBytes "0"]), (.set, [asBytes "k", asBytes "v"]),
        (.get, [asBytes "k"])]
      (Session.run (fun _ => ⟨0, .ok ()⟩) (serve idleEngine none .fresh
        ((.multi, []) :: ([(.select, [asBytes "0"]),
          (.set, [asBytes "k", asBytes "v"]), (.get, [asBytes "k"])] ++
            [(.execQueued, [])]))) (.fresh, 0))
      (Session.run (fun _ => ⟨0, .ok ()⟩) (serve idleEngine none .fresh
        [(.select, [asBytes "0"]), (.set, [asBytes "k", asBytes "v"]),
          (.get, [asBytes "k"])]) (.fresh, 0)) := by
  apply queued_eq_direct
  · rfl
  · simp [Queueable]

end Server
end Cache
end MuonJs
