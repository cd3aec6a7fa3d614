import MuonJs.Cache.Sessions

/-!
# Queued commands

Between `MULTI` and `EXEC` requests are put into a queue of the connection, with
two exceptions: `SUBSCRIBE` and `PUBLISH` are tested before the queue and act at
once.  After every reply the messages that wait for the connection are written to it,
and after the reply to `QUIT` the connection ends, whether it is in a transaction or not.
-/

namespace MuonJs
namespace Cache

/-! ## Subscribing and publishing -/

namespace ServerState

theorem channels_register
    (sender : ℕ) (channels : List Bytes) (state : ServerState n) (channel : Bytes) :
    (channels.foldl (register sender) state).channels channel =
      state.channels channel ++ List.replicate (channels.count channel) sender := by
  induction channels generalizing state with
  | nil => rw [List.foldl_nil, List.count_nil, List.replicate_zero, List.append_nil]
  | cons first channels ih =>
      rw [List.foldl_cons, ih, register]
      dsimp only
      by_cases same : first = channel
      · rw [same, Function.update_self, List.count_cons_self, List.append_assoc,
          List.replicate_succ, List.singleton_append]
      · rw [Function.update_of_ne (Ne.symm same), List.count_cons_of_ne same]

/-- The number of messages that wait in a queue. -/
def queueLength (state : ServerState n) (receiver : ℕ) : ℕ :=
  ((state.queues receiver).getD []).length

theorem trySend_of_accepts
    {state : ServerState n} {receiver : ℕ} (accepts : state.Accepts receiver)
    (message : RespValue) :
    state.queueLength receiver <
      (state.trySend receiver message).2.queueLength receiver := by
  obtain ⟨waiting, isOpen, hasRoom⟩ := accepts
  rw [trySend, isOpen]
  dsimp only
  rw [if_pos hasRoom, queueLength, queueLength, enqueue]
  dsimp only
  rw [Function.update_self, isOpen, Option.getD_some, Option.getD_some,
    List.length_append]
  exact Nat.lt_succ_self _

theorem trySend_of_not_accepts
    {state : ServerState n} {receiver : ℕ} (refuses : ¬state.Accepts receiver)
    (message : RespValue) :
    (state.trySend receiver message).2 = state := by
  unfold trySend
  split
  · rfl
  · rename_i waiting isOpen
    rw [if_neg fun hasRoom => refuses ⟨waiting, isOpen, hasRoom⟩]

theorem queueLength_trySend
    (state : ServerState n) (receiver other : ℕ) (message : RespValue) :
    state.queueLength other ≤ (state.trySend receiver message).2.queueLength other := by
  by_cases accepts : state.Accepts receiver
  · by_cases same : other = receiver
    · rw [same]
      exact (trySend_of_accepts accepts message).le
    · obtain ⟨waiting, isOpen, hasRoom⟩ := accepts
      rw [trySend, isOpen]
      dsimp only
      rw [if_pos hasRoom, queueLength, queueLength, enqueue]
      dsimp only
      rw [Function.update_of_ne same]
  · rw [trySend_of_not_accepts accepts]

/-- Send a message to receivers one by one. -/
def sendAll (message : RespValue) (receivers : List ℕ) (state : ServerState n) :
    ServerState n :=
  receivers.foldl (fun state receiver => (state.trySend receiver message).2) state

theorem queueLength_sendAll
    (message : RespValue) (receivers : List ℕ) (state : ServerState n) (other : ℕ) :
    state.queueLength other ≤ (sendAll message receivers state).queueLength other := by
  induction receivers generalizing state with
  | nil => exact le_refl _
  | cons receiver receivers ih =>
      exact (queueLength_trySend state receiver other message).trans (ih _)

theorem queues_trySend_of_ne
    (state : ServerState n) {receiver other : ℕ} (different : other ≠ receiver)
    (message : RespValue) :
    (state.trySend receiver message).2.queues other = state.queues other := by
  by_cases accepts : state.Accepts receiver
  · obtain ⟨waiting, isOpen, hasRoom⟩ := accepts
    rw [trySend, isOpen]
    dsimp only
    rw [if_pos hasRoom, enqueue]
    exact Function.update_of_ne different _ _
  · rw [trySend_of_not_accepts accepts]

/-- A receiver that accepts the message gets it. -/
theorem queueLength_lt_sendAll
    (message : RespValue) {receivers : List ℕ} {receiver : ℕ} (isReceiver : receiver ∈ receivers)
    {state : ServerState n} (accepts : state.Accepts receiver) :
    state.queueLength receiver < (sendAll message receivers state).queueLength receiver := by
  induction receivers generalizing state with
  | nil => cases isReceiver
  | cons first receivers ih =>
      by_cases same : receiver = first
      · subst same
        exact lt_of_lt_of_le (trySend_of_accepts accepts message)
          (queueLength_sendAll message receivers _ receiver)
      · have isLater := (List.mem_cons.mp isReceiver).resolve_left same
        have sameQueue := state.queues_trySend_of_ne same message
        have later := @ih isLater (state.trySend first message).2 (by
          rw [Accepts, sameQueue]
          exact accepts)
        rw [queueLength, sameQueue] at later
        exact later

/-! ## After a reply -/

/-- What follows the reply to a request: the messages that wait for the sender are
written, and `QUIT` drops its queue. -/
def afterReply (sender : ℕ) (cmd : Command) (state : ServerState n) : ServerState n :=
  { state with queues := Function.update state.queues sender (
      if cmd = .quit then none else (state.queues sender).map fun _ => []) }

/-- The messages that wait for a receiver. -/
def waiting (state : ServerState n) (receiver : ℕ) : List RespValue :=
  (state.queues receiver).getD []

/-- Nothing but the end of a queue that no channel sends to is different: the databases,
the scripts, the log, what is saved and the registry are the same, the same messages wait
for every receiver, and the queues of all subscribers are open or closed as before. -/
structure Same (before after : ServerState n) : Prop where
  others : after = { before with queues := after.queues }
  waiting : ∀ receiver, after.waiting receiver = before.waiting receiver
  subscribers : ∀ channel, ∀ receiver ∈ before.channels channel,
    after.queues receiver = before.queues receiver

/-- The reply finds a message that waits, or ends a subscriber's queue. -/
def Disturbs (sender : ℕ) (state : ServerState n) (cmd : Command) : Prop :=
  state.waiting sender ≠ [] ∨
    cmd = .quit ∧ state.queues sender ≠ none ∧ ∃ channel, sender ∈ state.channels channel

theorem waiting_afterReply_self (sender : ℕ) (cmd : Command) (state : ServerState n) :
    (state.afterReply sender cmd).waiting sender = [] := by
  rw [waiting, afterReply]
  dsimp only
  rw [Function.update_self]
  split
  · rfl
  · cases state.queues sender <;> rfl

/-- Without a message that waits, a reply other than the last one leaves the state. -/
theorem afterReply_eq {sender : ℕ} {cmd : Command} {state : ServerState n}
    (notQuit : cmd ≠ .quit) (nothing : state.waiting sender = []) :
    state.afterReply sender cmd = state := by
  have same : (state.queues sender).map (fun _ => []) = state.queues sender := by
    rw [waiting] at nothing
    cases isOpen : state.queues sender with
    | none => rfl
    | some messages =>
        rw [isOpen] at nothing
        exact congrArg some nothing.symm
  rw [afterReply, if_neg notQuit, same, Function.update_eq_self]

theorem same_afterReply_iff (sender : ℕ) (cmd : Command) (state : ServerState n) :
    state.Same (state.afterReply sender cmd) ↔ ¬state.Disturbs sender cmd := by
  constructor
  · rintro same (waits | ⟨rfl, isOpen, channel, subscribed⟩)
    · exact waits ((same.waiting sender).symm.trans (waiting_afterReply_self sender cmd state))
    · refine isOpen ((same.subscribers channel sender subscribed).symm.trans ?_)
      exact Function.update_self _ _ _
  · intro quiet
    rw [Disturbs, not_or, not_not] at quiet
    obtain ⟨nothing, stays⟩ := quiet
    by_cases isQuit : cmd = .quit
    · refine ⟨rfl, fun receiver => ?_, fun channel receiver subscribed => ?_⟩
      · by_cases isSender : receiver = sender
        · rw [isSender, waiting_afterReply_self, nothing]
        · rw [waiting, afterReply]
          dsimp only
          rw [Function.update_of_ne isSender, waiting]
      · by_cases isSender : receiver = sender
        · subst isSender
          have isClosed : state.queues receiver = none := by
            by_contra isOpen
            exact stays ⟨isQuit, isOpen, channel, subscribed⟩
          rw [isClosed, afterReply]
          dsimp only
          rw [Function.update_self, if_pos isQuit]
        · exact Function.update_of_ne isSender _ _
    · rw [afterReply_eq isQuit nothing]
      exact ⟨rfl, fun _ => rfl, fun _ _ _ => rfl⟩

/-- What a connection sends to itself is written after the reply. -/
theorem afterReply_sendAll
    {sender : ℕ} {cmd : Command} (message : RespValue) {receivers : List ℕ}
    {state : ServerState n}
    (refuse : ∀ receiver ∈ receivers, receiver ≠ sender → ¬state.Accepts receiver) :
    (sendAll message receivers state).afterReply sender cmd = state.afterReply sender cmd := by
  induction receivers generalizing state with
  | nil => rfl
  | cons first receivers ih =>
      rw [List.forall_mem_cons] at refuse
      by_cases isSender : first = sender
      · have sameOthers : ∀ receiver ∈ receivers, receiver ≠ sender →
            ¬(state.trySend first message).2.Accepts receiver := by
          intro receiver isReceiver notSender accepts
          rw [Accepts, state.queues_trySend_of_ne (isSender ▸ notSender)] at accepts
          exact refuse.2 receiver isReceiver notSender accepts
        refine (ih sameOthers).trans ?_
        subst isSender
        by_cases accepts : state.Accepts first
        · obtain ⟨messages, isOpen, hasRoom⟩ := accepts
          rw [trySend, isOpen]
          dsimp only
          rw [if_pos hasRoom, enqueue, afterReply, afterReply, isOpen]
          dsimp only
          rw [Function.update_self, Function.update_idem]
          rfl
        · rw [trySend_of_not_accepts accepts]
      · have refused := trySend_of_not_accepts (refuse.1 isSender) message
        rw [sendAll, List.foldl_cons, refused]
        exact ih refuse.2

end ServerState

namespace Server

variable {clock : ℕ → Moment}

theorem run_handleSubscribe
    (sender : ℕ) (channels : List Bytes) (state : ServerState n) (tick : ℕ) :
    ∃ reply tick', Session.run clock (handleSubscribe sender channels) (state, tick) =
      some (reply, channels.foldl (ServerState.register sender) state, tick') := by
  cases channels with
  | nil => exact ⟨_, _, rfl⟩
  | cons channel channels => exact ⟨_, _, rfl⟩

theorem run_deliver
    (message : RespValue) (delivered : Int64) (receivers : List ℕ)
    (state : ServerState n) (tick : ℕ) :
    ∃ delivered' tick', Session.run clock (deliver message delivered receivers)
        (state, tick) =
      some (delivered', ServerState.sendAll message receivers state, tick') := by
  induction receivers generalizing delivered state tick with
  | nil => exact ⟨_, _, rfl⟩
  | cons receiver receivers ih => exact ih _ _ _

/-- What the request changes outside the queue: a `SUBSCRIBE` registers its channels, a
`PUBLISH` fills the queues of others that accept its message, and after the reply to any
request the messages that wait are written, or the queue of a subscriber ends. -/
def Acts (sender : ℕ) (state : ServerState n) (cmd : Command) (args : List Bytes) : Prop :=
  (cmd = .subscribe ∧ args ≠ []) ∨
    (cmd = .publish ∧ ∃ channel message, args = [channel, message] ∧
      ∃ receiver ∈ state.channels channel, receiver ≠ sender ∧ state.Accepts receiver) ∨
    state.Disturbs sender cmd

/-- A request that does not act leaves the state, unless it is the last one. -/
theorem afterReply_of_quiet {sender : ℕ} {state : ServerState n} {cmd : Command}
    {args : List Bytes} (notQuit : cmd ≠ .quit) (quiet : ¬Acts sender state cmd args) :
    state.afterReply sender cmd = state := by
  refine ServerState.afterReply_eq notQuit ?_
  by_contra waits
  exact quiet (.inr (.inr (.inl waits)))

/-- A request that changes nothing itself. -/
theorem same_iff_of_quiet {sender : ℕ} {state : ServerState n} {cmd : Command}
    {args : List Bytes} (notSubscribe : ¬(cmd = .subscribe ∧ args ≠ []))
    (notPublish : ¬(cmd = .publish ∧ ∃ channel message, args = [channel, message] ∧
      ∃ receiver ∈ state.channels channel, receiver ≠ sender ∧ state.Accepts receiver)) :
    state.Same (state.afterReply sender cmd) ↔ ¬Acts sender state cmd args := by
  rw [Acts, or_iff_right notSubscribe, or_iff_right notPublish,
    ServerState.same_afterReply_iff]

theorem same_register_iff {sender : ℕ} {state : ServerState n} {args : List Bytes} :
    state.Same ((args.foldl (ServerState.register sender) state).afterReply sender .subscribe) ↔
      ¬Acts sender state .subscribe args := by
  cases args with
  | nil => exact same_iff_of_quiet (fun both => both.2 rfl) (by rintro ⟨⟨⟩, -⟩)
  | cons channel channels =>
      refine iff_of_false (fun same => ?_) fun quiet => quiet (.inl ⟨rfl, by simp⟩)
      have sameChannels := congrArg (fun state => state.channels channel) same.others
      dsimp only [ServerState.afterReply] at sameChannels
      rw [ServerState.channels_register] at sameChannels
      have lengths := congrArg List.length sameChannels
      rw [List.length_append, List.length_replicate, List.count_cons_self] at lengths
      omega

theorem run_handlePublish
    (sender : ℕ) (args : List Bytes) (state : ServerState n) (tick : ℕ) :
    ∃ reply state' tick', Session.run clock (handlePublish args) (state, tick) =
        some (reply, state', tick') ∧
      (state.Same (state'.afterReply sender .publish) ↔ ¬Acts sender state .publish args) ∧
      (¬Acts sender state .publish args → state'.afterReply sender .publish = state) := by
  unfold handlePublish
  split
  · rename_i channel message
    obtain ⟨delivered, tick', isRun⟩ := @run_deliver clock n
      (.array [.blob (asBytes "message"), .blob channel, .blob message]) 0
      (state.channels channel) state (tick + 1)
    refine ⟨.integer delivered, ServerState.sendAll
      (.array [.blob (asBytes "message"), .blob channel, .blob message])
      (state.channels channel) state, tick', ?_, ?_, fun quiet => ?_⟩
    · rw [Session.run_perform_bind rfl, Session.run_bind]
      exact congrArg (Option.bind · _) isRun
    · by_cases reaches : ∃ receiver ∈ state.channels channel, receiver ≠ sender ∧
          state.Accepts receiver
      · refine iff_of_false (fun same => ?_) fun quiet =>
          quiet (.inr (.inl ⟨rfl, channel, message, rfl, reaches⟩))
        obtain ⟨receiver, isReceiver, notSender, accepts⟩ := reaches
        have more := ServerState.queueLength_lt_sendAll
          (.array [.blob (asBytes "message"), .blob channel, .blob message]) isReceiver accepts
        have sameWaiting := congrArg List.length (same.waiting receiver)
        unfold ServerState.waiting ServerState.afterReply at sameWaiting
        dsimp only at sameWaiting
        rw [Function.update_of_ne notSender] at sameWaiting
        exact more.ne' sameWaiting
      · rw [ServerState.afterReply_sendAll _ fun receiver isReceiver notSender accepts =>
          reaches ⟨receiver, isReceiver, notSender, accepts⟩]
        refine same_iff_of_quiet (by rintro ⟨⟨⟩, -⟩) ?_
        rintro ⟨-, _, _, same, receiver, isReceiver, accepts⟩
        cases same
        exact reaches ⟨receiver, isReceiver, accepts⟩
    · rw [ServerState.afterReply_sendAll _ fun receiver isReceiver notSender accepts =>
        quiet (.inr (.inl ⟨rfl, channel, message, rfl, receiver, isReceiver, notSender,
          accepts⟩))]
      exact afterReply_of_quiet (by decide) quiet
  · rename_i notPair
    refine ⟨_, _, _, rfl, same_iff_of_quiet (by rintro ⟨⟨⟩, -⟩) ?_,
      afterReply_of_quiet (by decide)⟩
    rintro ⟨-, channel, message, same, -⟩
    exact notPair channel message same

end Server

/-! ## One connection among others -/

/-- What happens while a connection is open: it sends a request, or the others
change the server. -/
inductive ConnectionEvent (n : ℕ)
  | request (cmd : Command) (args : List Bytes)
  | outside (change : ServerState n → ServerState n)

/-- The event does not end a transaction. -/
def ConnectionEvent.Stays : ConnectionEvent n → Prop
  | .request cmd _ => cmd ≠ .execQueued ∧ cmd ≠ .discard
  | .outside _ => True

/-- A connection and the state outside it. -/
structure ClientConnection (engine : ScriptEngine) (n : ℕ) where
  server : ServerState n
  tick : ℕ
  client : Client engine n
  isOpen : Bool

namespace ClientConnection

variable {engine : ScriptEngine} {persist : Option Bool} {clock : ℕ → Moment}

/-- One event, unless the process ends: a turn of the loop of `handle_client`, to the end
of the connection after a `QUIT`, or a change by others. -/
def step (persist : Option Bool) (clock : ℕ → Moment)
    (connection : ClientConnection engine n) :
    ConnectionEvent n → Option (ClientConnection engine n)
  | .request cmd args =>
      if connection.isOpen then
        (Session.run clock
          (Server.handleRequest engine persist connection.client cmd args)
          (connection.server, connection.tick)).map fun ((_, client), server, tick) =>
            ⟨server.afterReply client.sender cmd, tick, client, cmd ≠ .quit⟩
      else some connection
  | .outside change => some { connection with server := change connection.server }

/-- A request leaves everything outside the queue of the connection as it was. -/
def Leaves (before after : ClientConnection engine n) : ConnectionEvent n → Prop
  | .request .. => before.server.Same after.server ∧ after.client.current = before.client.current
  | .outside _ => True

/-- Each of the events happens, and the requests among them leave everything outside the
queue as it was. -/
def Untouched (persist : Option Bool) (clock : ℕ → Moment) :
    ClientConnection engine n → List (ConnectionEvent n) → Prop
  | _, [] => True
  | connection, event :: events => ∃ after, connection.step persist clock event = some after ∧
      connection.Leaves after event ∧ after.Untouched persist clock events

/-- After a `MULTI` none of the requests has an effect outside the queue, nor has a
`DISCARD` after them. -/
def Isolated (persist : Option Bool) (clock : ℕ → Moment)
    (start : ClientConnection engine n) (args : List Bytes)
    (events : List (ConnectionEvent n)) : Prop :=
  ∃ opened, start.step persist clock (.request .multi args) = some opened ∧
    ∀ args', opened.Untouched persist clock (events ++ [.request .discard args'])

/-- No request up to a `QUIT` acts. -/
def Quiet (sender : ℕ) : ServerState n → List (ConnectionEvent n) → Prop
  | _, [] => True
  | state, .outside change :: events => Quiet sender (change state) events
  | state, .request cmd args :: events =>
      ¬Server.Acts sender state cmd args ∧ (cmd ≠ .quit → Quiet sender state events)

/-- The client stays in its transaction, and the server changes where the request acts. -/
structure Keeps (connection : ClientConnection engine n) (cmd : Command) (args : List Bytes)
    (after : ClientConnection engine n) : Prop where
  isOpen : after.isOpen = (cmd ≠ .quit : Bool)
  inMulti : cmd ≠ .discard → after.client.inMulti = true
  sender : after.client.sender = connection.client.sender
  current : after.client.current = connection.client.current
  same_iff : connection.server.Same after.server ↔
    ¬Server.Acts connection.client.sender connection.server cmd args
  quiet : cmd ≠ .quit → ¬Server.Acts connection.client.sender connection.server cmd args →
    after.server = connection.server

/-- A request in a transaction changes nothing but the queue, unless it acts
before it or after the reply. -/
theorem step_inMulti
    (connection : ClientConnection engine n) (isOpen : connection.isOpen = true)
    (isMulti : connection.client.inMulti = true) {cmd : Command} (notExec : cmd ≠ .execQueued)
    (args : List Bytes) :
    ∃ after, connection.step persist clock (.request cmd args) = some after ∧
      connection.Keeps cmd args after := by
  have pure_run (reply : FastResponse) (client : Client engine n)
      (isMulti : cmd ≠ .discard → client.inMulti = true)
      (sameSender : client.sender = connection.client.sender)
      (isCurrent : client.current = connection.client.current)
      (isProgram : Server.handleRequest engine persist connection.client cmd args =
        .pure (reply, client)) (notSubscribe : cmd ≠ .subscribe) (notPublish : cmd ≠ .publish) :
      ∃ after, connection.step persist clock (.request cmd args) = some after ∧
        connection.Keeps cmd args after := by
    refine ⟨⟨connection.server.afterReply client.sender cmd, connection.tick, client,
      cmd ≠ .quit⟩, ?_, rfl, isMulti, sameSender, isCurrent, ?_, ?_⟩
    · rw [step, if_pos isOpen, isProgram]
      rfl
    · rw [sameSender]
      exact Server.same_iff_of_quiet (fun both => notSubscribe both.1)
        fun both => notPublish both.1
    · rw [sameSender]
      exact Server.afterReply_of_quiet
  by_cases isSubscribe : cmd = .subscribe
  · subst isSubscribe
    obtain ⟨reply, tick, isRun⟩ := @Server.run_handleSubscribe clock n
      connection.client.sender args connection.server connection.tick
    refine ⟨⟨(args.foldl (ServerState.register connection.client.sender)
      connection.server).afterReply connection.client.sender .subscribe, tick,
      connection.client, true⟩, ?_, rfl, fun _ => isMulti, rfl, rfl, Server.same_register_iff,
      fun notQuit quiet => ?_⟩
    · rw [step, if_pos isOpen, Server.handleRequest, if_pos rfl, Session.run_bind, isRun]
      rfl
    · have noChannel : args = [] := by
        by_contra nonempty
        exact quiet (.inl ⟨rfl, nonempty⟩)
      rw [noChannel] at quiet ⊢
      exact Server.afterReply_of_quiet notQuit quiet
  by_cases isPublish : cmd = .publish
  · subst isPublish
    obtain ⟨reply, server, tick, isRun, sameIff, sameServer⟩ := @Server.run_handlePublish clock n
      connection.client.sender args connection.server connection.tick
    refine ⟨⟨server.afterReply connection.client.sender .publish, tick, connection.client,
      true⟩, ?_, rfl, fun _ => isMulti, rfl, rfl, sameIff, fun _ => sameServer⟩
    rw [step, if_pos isOpen, Server.handleRequest, if_neg isSubscribe, if_pos rfl,
      Session.run_bind, isRun]
    rfl
  by_cases isNested : cmd = .multi
  · refine pure_run (.value (.error "ERR MULTI calls can not be nested"))
      connection.client (fun _ => isMulti) rfl rfl ?_ isSubscribe isPublish
    rw [Server.handleRequest, if_neg isSubscribe, if_neg isPublish,
      if_neg (fun queues => queues.2.2.2 isNested), if_pos isNested, if_pos isMulti]
    rfl
  by_cases isDiscard : cmd = .discard
  · refine pure_run (.value .ok) { connection.client with inMulti := false, queued := [] }
      (fun notDiscard => absurd isDiscard notDiscard) rfl rfl ?_ isSubscribe isPublish
    rw [Server.handleRequest, if_neg isSubscribe, if_neg isPublish,
      if_neg (fun queues => queues.2.2.1 isDiscard), if_neg isNested, if_pos isDiscard,
      if_pos isMulti]
    rfl
  · refine pure_run (.value (.simple "QUEUED")) { connection.client with
      queued := connection.client.queued ++ [(cmd, args)] } (fun _ => isMulti) rfl rfl ?_
      isSubscribe isPublish
    rw [Server.handleRequest, if_neg isSubscribe, if_neg isPublish,
      if_pos ⟨isMulti, notExec, isDiscard, isNested⟩]
    rfl

/-- After the end of the connection nothing is read from it. -/
theorem untouched_of_closed
    {connection : ClientConnection engine n} (isClosed : connection.isOpen = false)
    (events : List (ConnectionEvent n)) : connection.Untouched persist clock events := by
  induction events generalizing connection with
  | nil => trivial
  | cons event events ih =>
      cases event with
      | request cmd args =>
          have isStep : connection.step persist clock (.request cmd args) = some connection := by
            rw [step, if_neg (by rw [isClosed]; exact Bool.false_ne_true)]
          exact ⟨connection, isStep, ⟨⟨rfl, fun _ => rfl, fun _ _ _ => rfl⟩, rfl⟩, ih isClosed⟩
      | outside change =>
          exact ⟨_, rfl, trivial, ih isClosed⟩

/-- In a transaction, request by request. -/
theorem untouched_iff
    {connection : ClientConnection engine n} (isOpen : connection.isOpen = true)
    (isMulti : connection.client.inMulti = true)
    {events : List (ConnectionEvent n)} (stays : ∀ event ∈ events, event.Stays)
    (args : List Bytes) :
    connection.Untouched persist clock (events ++ [.request .discard args]) ↔
      Quiet connection.client.sender connection.server
        (events ++ [.request .discard args]) := by
  induction events generalizing connection with
  | nil =>
      obtain ⟨after, isStep, -, -, -, isCurrent, sameIff, -⟩ :=
        @step_inMulti _ persist clock _ connection isOpen isMulti .discard (by decide) args
      constructor
      · rintro ⟨after', isStep', leaves, -⟩
        rw [isStep] at isStep'
        obtain rfl := Option.some.inj isStep'
        exact ⟨sameIff.mp leaves.1, fun _ => trivial⟩
      · rintro ⟨quiet, -⟩
        exact ⟨after, isStep, ⟨sameIff.mpr quiet, isCurrent⟩, trivial⟩
  | cons event events ih =>
      rw [List.forall_mem_cons] at stays
      cases event with
      | outside change =>
          have later := @ih { connection with server := change connection.server } isOpen
            isMulti stays.2
          constructor
          · rintro ⟨after, isStep, -, rest⟩
            obtain rfl := Option.some.inj isStep
            exact later.mp rest
          · intro quiet
            exact ⟨_, rfl, trivial, later.mpr quiet⟩
      | request cmd args' =>
          obtain ⟨after, isStep, stillOpen, stillMulti, sameSender, isCurrent, sameIff,
            sameServer⟩ :=
              @step_inMulti _ persist clock _ connection isOpen isMulti cmd stays.1.1 args'
          have later (notQuit : cmd ≠ .quit)
              (quiet : ¬Server.Acts connection.client.sender connection.server cmd args') :
              after.Untouched persist clock (events ++ [.request .discard args]) ↔
                Quiet connection.client.sender connection.server
                  (events ++ [.request .discard args]) := by
            rw [ih (by rw [stillOpen, decide_eq_true notQuit]) (stillMulti stays.1.2) stays.2,
              sameSender, sameServer notQuit quiet]
          constructor
          · rintro ⟨after', isStep', leaves, rest⟩
            rw [isStep] at isStep'
            obtain rfl := Option.some.inj isStep'
            have quiet := sameIff.mp leaves.1
            exact ⟨quiet, fun notQuit => (later notQuit quiet).mp rest⟩
          · rintro ⟨quiet, rest⟩
            refine ⟨after, isStep, ⟨sameIff.mpr quiet, isCurrent⟩, ?_⟩
            by_cases isQuit : cmd = .quit
            · exact untouched_of_closed
                (by rw [stillOpen, decide_eq_false (not_not.mpr isQuit)]) _
            · exact (later isQuit quiet).mpr (rest isQuit)

/-- Whether a request acts does not depend on the arguments of the `DISCARD`. -/
theorem quiet_discard_iff
    (sender : ℕ) (state : ServerState n) (events : List (ConnectionEvent n))
    (args args' : List Bytes) :
    Quiet sender state (events ++ [.request .discard args]) ↔
      Quiet sender state (events ++ [.request .discard args']) := by
  induction events generalizing state with
  | nil => simp [Quiet, Server.Acts]
  | cons event events ih =>
      cases event with
      | outside change => exact ih _
      | request cmd args'' =>
          exact and_congr_right fun _ => forall_congr' fun _ => ih state

/-- Between `MULTI` and `EXEC` or `DISCARD` no request has an effect outside the
queue exactly when, up to a `QUIT`, none of them is a `SUBSCRIBE` to some channel or a
`PUBLISH` whose message another subscriber accepts, no message waits for the connection
at the end of one, and the `QUIT` is not a subscriber's. -/
theorem isolated_iff
    (start : ClientConnection engine n) (isOpen : start.isOpen = true)
    (direct : start.client.inMulti = false)
    (args : List Bytes) (events : List (ConnectionEvent n))
    (stays : ∀ event ∈ events, event.Stays) :
    Isolated persist clock start args events ↔
      Quiet start.client.sender (start.server.afterReply start.client.sender .multi)
        (events ++ [.request .discard []]) := by
  let opened : ClientConnection engine n :=
    { start with
      server := start.server.afterReply start.client.sender .multi
      client := { start.client with inMulti := true, queued := [] }
      isOpen := true }
  have begins : start.step persist clock (.request .multi args) = some opened := by
    rw [step, if_pos isOpen, Server.handleRequest, if_neg (by decide), if_neg (by decide),
      if_neg (by rw [direct]; simp), if_pos rfl, if_neg (by rw [direct]; decide)]
    rfl
  have untouched (args' : List Bytes) :
      opened.Untouched persist clock (events ++ [.request .discard args']) ↔
        Quiet start.client.sender (start.server.afterReply start.client.sender .multi)
          (events ++ [.request .discard []]) := by
    rw [quiet_discard_iff _ _ _ [] args']
    exact untouched_iff rfl rfl stays args'
  constructor
  · rintro ⟨opened', begins', isolated⟩
    rw [begins] at begins'
    obtain rfl := Option.some.inj begins'
    exact (untouched []).mp (isolated [])
  · exact fun quiet => ⟨opened, begins, fun args' => (untouched args').mpr quiet⟩

/-- A connection to a server without data. -/
def fresh : ClientConnection idleEngine 1 := ⟨.fresh, 0, .fresh, true⟩

/-- `MULTI`, `SAVE`, a change by another client, `EVAL`. -/
theorem isolated_iff_save :
    Isolated none (fun _ => ⟨0, .ok ()⟩) fresh []
      [.request .save [], .outside fun server => { server with scripts := fun _ => none },
        .request .eval [asBytes "1", asBytes "0"]] := by
  refine (isolated_iff fresh rfl rfl [] _ ?_).mpr ?_
  · simp [ConnectionEvent.Stays]
  · simp [Quiet, Server.Acts, ServerState.Disturbs, ServerState.waiting,
      ServerState.afterReply, fresh, ServerState.fresh, Client.fresh]

/-- `SUBSCRIBE` in a transaction registers the client at once. -/
theorem not_always_isolated :
    ¬∀ (engine : ScriptEngine) (n : ℕ) (persist : Option Bool) (clock : ℕ → Moment)
      (start : ClientConnection engine n) (args : List Bytes)
      (events : List (ConnectionEvent n)),
      start.isOpen = true → start.client.inMulti = false →
        (∀ event ∈ events, event.Stays) → Isolated persist clock start args events := by
  intro always
  obtain ⟨opened, begins, untouched⟩ := always idleEngine 1 none
    (fun _ => ⟨0, .ok ()⟩) fresh [] [.request .subscribe [asBytes "c"]] rfl rfl
    (by simp [ConnectionEvent.Stays])
  obtain rfl := Option.some.inj begins
  obtain ⟨after, isStep, leaves, -⟩ := untouched []
  obtain rfl := Option.some.inj isStep
  exact Server.same_register_iff.mp leaves.1 (.inl ⟨rfl, by decide⟩)

end ClientConnection
end Cache
end MuonJs
