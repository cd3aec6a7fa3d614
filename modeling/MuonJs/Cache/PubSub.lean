import MuonJs.Cache.Multi
import MuonJs.Lib.Paths

/-!
# Published messages

`SUBSCRIBE` appends the sender of the connection to the list of each channel it
names, and `PUBLISH` copies the list of its channel and sends the message to the
senders of the copy one by one, while other connections subscribe, publish and
empty their queues.

A list in which no connection stands twice makes `PUBLISH` deliver once and count
the connections.  The lists stay so as long as no `SUBSCRIBE` names a channel twice
or one that its connection is subscribed to: `handle_subscribe` does not look.
-/

namespace MuonJs
namespace Cache

/-! ## Requests among others -/

/-- A request about channels; the sender is the connection that subscribes. -/
inductive ChannelRequest
  | subscribe (sender : ℕ) (channels : List Bytes)
  | publish (args : List Bytes)

/-- What the server does for it. -/
def ChannelRequest.session : ChannelRequest → Session n RespValue
  | .subscribe sender channels => Server.handleSubscribe sender channels
  | .publish args => Server.handlePublish args

/-- What happens between two calls of the requests: connections read from their
queues, open and close, and other commands run.  The channels stay. -/
structure Outside (n : ℕ) where
  change : ServerState n → ServerState n
  channels_change : ∀ state, (change state).channels = state.channels

/-- Nothing happens in between. -/
def Outside.none : Outside n := ⟨id, fun _ => rfl⟩

namespace ServerCall

/-- A call after something happened outside. -/
def execAmong (time : Moment × Outside n) :
    Executor (signature n) (ServerState n) :=
  fun call state => call.exec time.1 (time.2.change state)

/-- The receiver of a message that a queue accepted. -/
def deliveredTo : Answer (signature n) → Option ℕ
  | ⟨.trySend receiver _, true⟩ => some receiver
  | _ => none

/-- The channels after a call. -/
theorem channels_exec
    (moment : Moment) (call : ServerCall n) (state : ServerState n) :
    (∃ sender channels, call = .subscribe sender channels) ∨
      (call.exec moment state).2.channels = state.channels := by
  cases call with
  | subscribe sender channels => exact .inl ⟨sender, channels, rfl⟩
  | snapshot copies =>
      refine .inr ?_
      unfold exec
      cases moment.snapshot <;> rfl
  | trySend receiver message =>
      refine .inr ?_
      change (state.trySend receiver message).2.channels = _
      unfold ServerState.trySend
      split
      · rfl
      · split <;> rfl
  | _ => exact .inr rfl

end ServerCall

/-- A call of one of several requests. -/
abbrev ChannelEvent (n : ℕ) (ι : Type) :=
  Event (ServerCall.signature n) ι (Moment × Outside n)

namespace ChannelEvent

variable {ι : Type}

/-- The state after a call. -/
def step (state : ServerState n) (event : ChannelEvent n ι) : ServerState n :=
  event.next ServerCall.execAmong state

/-- A subscription names no channel twice and none that its connection is
subscribed to. -/
def NewSubscription (state : ServerState n) (event : ChannelEvent n ι) : Prop :=
  ∀ sender channels, event.request = .subscribe sender channels →
    channels.Nodup ∧ ∀ channel ∈ channels, sender ∉ state.channels channel

/-- The connections that accepted the message of a request, in the order in which
it was put into their queues. -/
def deliveries [DecidableEq ι] (publisher : ι) (state : ServerState n)
    (events : List (ChannelEvent n ι)) : List ℕ :=
  (Event.answers ServerCall.execAmong publisher state events).filterMap
    ServerCall.deliveredTo

end ChannelEvent

/-! ## The registry -/

namespace ServerState

/-- No connection stands twice in the list of a channel. -/
def RegistersOnce (state : ServerState n) : Prop :=
  ∀ channel, (state.channels channel).Nodup

/-- A list with new senders is without repetitions when the channels are. -/
theorem registersOnce_foldl_register_iff
    {state : ServerState n} (once : state.RegistersOnce)
    (sender : ℕ) (channels : List Bytes) :
    (channels.foldl (register sender) state).RegistersOnce ↔
      channels.Nodup ∧ ∀ channel ∈ channels, sender ∉ state.channels channel := by
  have ofChannel (channel : Bytes) :
      ((channels.foldl (register sender) state).channels channel).Nodup ↔
        channels.count channel ≤ 1 ∧
          (channel ∈ channels → sender ∉ state.channels channel) := by
    rw [channels_register, List.nodup_append', List.nodup_replicate]
    rw [and_iff_right (once channel)]
    refine and_congr_right fun _ => ?_
    rw [List.disjoint_left]
    constructor
    · intro apart isNamed isRegistered
      refine apart isRegistered (List.mem_replicate.mpr ⟨?_, rfl⟩)
      exact (List.count_pos_iff.mpr isNamed).ne'
    · intro apart other isRegistered isSender
      obtain ⟨isNamed, rfl⟩ := List.mem_replicate.mp isSender
      exact apart (List.count_pos_iff.mp (Nat.pos_of_ne_zero isNamed)) isRegistered
  rw [List.nodup_iff_count_le_one, ← forall_and]
  exact forall_congr' ofChannel

end ServerState

namespace ChannelEvent

variable {ι : Type}

/-- A new subscription keeps the registry, and so does every other call. -/
theorem registersOnce_step
    {state : ServerState n} {event : ChannelEvent n ι}
    (once : state.RegistersOnce) (isNew : event.NewSubscription state) :
    (event.step state).RegistersOnce := by
  obtain ⟨thread, ⟨moment, outside⟩, request⟩ := event
  have between : (outside.change state).RegistersOnce := by
    intro channel
    rw [outside.channels_change]
    exact once channel
  obtain ⟨sender, channels, isSubscribe⟩ | same :=
    request.channels_exec moment (outside.change state)
  · obtain ⟨nodup, notRegistered⟩ := isNew sender channels isSubscribe
    rw [show request = _ from isSubscribe]
    refine (ServerState.registersOnce_foldl_register_iff between sender channels).mpr
      ⟨nodup, fun channel isNamed => ?_⟩
    rw [outside.channels_change]
    exact notRegistered channel isNamed
  · intro channel
    change ((request.exec moment (outside.change state)).2.channels channel).Nodup
    rw [same]
    exact between channel

/-- A connection stays in the registry. -/
theorem channels_subset_step
    (state : ServerState n) (event : ChannelEvent n ι) (channel : Bytes) :
    state.channels channel ⊆ (event.step state).channels channel := by
  obtain ⟨thread, ⟨moment, outside⟩, request⟩ := event
  change _ ⊆ (request.exec moment (outside.change state)).2.channels channel
  obtain ⟨sender, channels, isSubscribe⟩ | same :=
    request.channels_exec moment (outside.change state)
  · rw [isSubscribe]
    change _ ⊆ (channels.foldl (ServerState.register sender)
      (outside.change state)).channels channel
    rw [ServerState.channels_register, outside.channels_change]
    exact List.subset_append_left _ _
  · rw [same, outside.channels_change]
    exact List.Subset.refl _

/-- In a run a connection stays in the registry. -/
theorem channels_subset_foldl
    (state : ServerState n) (events : List (ChannelEvent n ι)) (channel : Bytes) :
    state.channels channel ⊆ (events.foldl step state).channels channel := by
  induction events generalizing state with
  | nil => exact List.Subset.refl _
  | cons event events ih =>
      exact List.Subset.trans (channels_subset_step state event channel) (ih _)

/-- A call returned what the registry has for a channel. -/
def IsReading (channel : Bytes) (receivers : List ℕ)
    (answer : Answer (ServerCall.signature n)) : Prop :=
  answer = ⟨.receivers channel, receivers⟩

theorem isReading_result
    {state : ServerState n} {event : ChannelEvent n ι} {channel : Bytes}
    {receivers : List ℕ}
    (reads : IsReading channel receivers
      ⟨event.request, event.result ServerCall.execAmong state⟩) :
    receivers = state.channels channel := by
  obtain ⟨thread, ⟨moment, outside⟩, request⟩ := event
  cases request with
  | receivers other =>
      cases reads
      exact congrFun (outside.channels_change state) channel
  | _ => cases reads

section Readings

variable [DecidableEq ι] {thread : ι} {state : ServerState n}
  {events : List (ChannelEvent n ι)} {channel : Bytes} {receivers : List ℕ}
  (isRead : ⟨.receivers channel, receivers⟩ ∈
    Event.answers ServerCall.execAmong thread state events)

include isRead

/-- What was read of the registry stays there. -/
theorem receivers_subset_foldl :
    receivers ⊆ (events.foldl step state).channels channel := by
  induction events generalizing state with
  | nil => exact absurd isRead List.not_mem_nil
  | cons event events ih =>
      unfold Event.answers at isRead
      split at isRead
      · obtain isFirst | isLater := List.mem_cons.mp isRead
        · rw [isReading_result isFirst.symm]
          exact channels_subset_foldl state (event :: events) channel
        · exact ih isLater
      · exact ih isRead

/-- With new subscriptions only, what was read has no connection twice. -/
theorem receivers_nodup
    (once : state.RegistersOnce)
    (newSubscriptions : Trace.Along step (fun state event => event.NewSubscription state)
      state events) :
    receivers.Nodup := by
  refine Event.forall_mem_answers ServerCall.execAmong ServerState.RegistersOnce
    (fun answer => ∀ channel receivers, IsReading channel receivers answer →
      receivers.Nodup)
    (fun state event once isNew => ⟨registersOnce_step once isNew, ?_⟩)
    thread once newSubscriptions _ isRead channel receivers rfl
  intro channel receivers reads
  rw [isReading_result reads]
  exact once channel

end Readings
end ChannelEvent

/-! ## Publishing -/

namespace Server

open ServerCall

/-- Sending tries the receivers one by one, and at its end it has tried them all
and counted those that accepted. -/
theorem path_deliver
    {message : RespValue} {delivered : Int64} {receivers : List ℕ}
    {answers : List (Answer (signature n))} {last : Session n RespValue}
    (path : (deliver message delivered receivers >>= fun count =>
      return .integer count).Path answers last) :
    (answers.filterMap deliveredTo).Sublist receivers ∧
      ∀ reply, last = .pure reply → reply =
        .integer (delivered + Int64.ofNat (answers.filterMap deliveredTo).length) := by
  induction receivers generalizing delivered answers with
  | nil =>
      cases path with
      | nil =>
          refine ⟨List.Sublist.refl _, fun reply isReply => ?_⟩
          obtain rfl := Program.pure.inj isReply
          exact congrArg RespValue.integer (Int64.add_zero delivered).symm
  | cons receiver receivers ih =>
      cases path with
      | nil => exact ⟨List.nil_sublist _, fun reply isReply => by cases isReply⟩
      | cons isSent rest =>
          obtain ⟨among, counted⟩ := ih rest
          cases isSent with
          | false => exact ⟨among.cons receiver, counted⟩
          | true =>
              refine ⟨among.cons_cons receiver, fun reply isReply => ?_⟩
              rw [counted reply isReply, if_pos rfl]
              rw [show List.filterMap deliveredTo (_ :: _) = receiver :: _ from rfl,
                List.length_cons, Int64.add_assoc, Int64.ofNat_add, Int64.add_comm 1]
              rfl

/-- `PUBLISH` delivers to those of the senders that it has read, one after the
other, and replies how many there were. -/
theorem path_handlePublish
    {channel message : Bytes} {answers : List (Answer (signature n))}
    {last : Session n RespValue}
    (path : (handlePublish [channel, message]).Path answers last) :
    (answers.filterMap deliveredTo = [] ∨ ∃ receivers,
        ⟨.receivers channel, receivers⟩ ∈ answers ∧
          (answers.filterMap deliveredTo).Sublist receivers) ∧
      ∀ reply, last = .pure reply → reply =
        .integer (Int64.ofNat (answers.filterMap deliveredTo).length) := by
  cases path with
  | nil => exact ⟨.inl rfl, fun reply isReply => by cases isReply⟩
  | cons receivers rest =>
      obtain ⟨among, counted⟩ := path_deliver rest
      refine ⟨.inr ⟨receivers, List.mem_cons_self, among⟩, fun reply isReply => ?_⟩
      rw [counted reply isReply, Int64.zero_add]
      rfl

end Server

/-! ## Runs -/

/-- The message is put at most once into the queue of a connection, the connection
is subscribed to the channel, and the reply is the number of the connections. -/
structure DeliversOnce [DecidableEq ι] (channel : Bytes) (publisher : ι)
    (state : ServerState n) (events : List (ChannelEvent n ι))
    (final : ι → Session n RespValue) (last : ServerState n) : Prop where
  once : ∀ receiver, (ChannelEvent.deliveries publisher state events).count receiver ≤ 1
  subscribed : ∀ receiver ∈ ChannelEvent.deliveries publisher state events,
    receiver ∈ last.channels channel
  counted : ∀ reply, final publisher = .pure reply → reply = .integer (Int64.ofNat
    (ChannelEvent.deliveries publisher state events).toFinset.card)

/-- While every subscription is new, each published message is delivered once. -/
theorem deliversOnce_of_newSubscriptions [DecidableEq ι]
    (requests : ι → ChannelRequest) {state last : ServerState n}
    {events : List (ChannelEvent n ι)} {final : ι → Session n RespValue}
    (empty : ∀ channel, state.channels channel = [])
    (run : Interleaving ServerCall.execAmong (fun request => (requests request).session)
      state events final last)
    (newSubscriptions : Trace.Along ChannelEvent.step
      (fun state event => event.NewSubscription state) state events)
    (publisher : ι) (channel message : Bytes)
    (publishes : requests publisher = .publish [channel, message]) :
    DeliversOnce channel publisher state events final last := by
  have path := run.path publisher
  rw [publishes] at path
  obtain ⟨among, counted⟩ := Server.path_handlePublish path
  have isLast : events.foldl ChannelEvent.step state = last := run.after_eq
  have once : state.RegistersOnce := by
    intro channel
    rw [empty channel]
    exact List.nodup_nil
  have nodup : (ChannelEvent.deliveries publisher state events).Nodup := by
    obtain none | ⟨receivers, isRead, among⟩ := among
    · rw [ChannelEvent.deliveries, none]
      exact List.nodup_nil
    · exact among.nodup (ChannelEvent.receivers_nodup isRead once newSubscriptions)
  refine ⟨fun receiver => List.nodup_iff_count_le_one.mp nodup receiver, ?_, ?_⟩
  · intro receiver isDelivered
    obtain none | ⟨receivers, isRead, among⟩ := among
    · rw [ChannelEvent.deliveries, none] at isDelivered
      exact absurd isDelivered List.not_mem_nil
    · rw [← isLast]
      exact ChannelEvent.receivers_subset_foldl isRead (among.subset isDelivered)
  · intro reply isReply
    rw [List.toFinset_card_of_nodup nodup]
    exact counted reply isReply

/-! ## A connection that subscribes twice -/

/-- Connection `0` subscribes to the channels, and another one publishes a message
to channel `c`. -/
def subscribeAndPublish (channels : List Bytes) (request : Fin 2) : ChannelRequest :=
  if request.val = 0 then .subscribe 0 channels
  else .publish [asBytes "c", asBytes "m"]

/-- A moment at which nothing happens outside. -/
def quietTime : Moment × Outside n := (⟨0, .ok ()⟩, .none)

/-- The calls: the subscription, the reading of the registry, the sendings. -/
def subscribeAndPublishEvents (channels : List Bytes) (sendings : ℕ) :
    List (ChannelEvent 1 (Fin 2)) :=
  ⟨⟨0, Nat.zero_lt_two⟩, quietTime, .subscribe 0 channels⟩ ::
    ⟨⟨1, Nat.one_lt_two⟩, quietTime, .receivers (asBytes "c")⟩ ::
    List.replicate sendings ⟨⟨1, Nat.one_lt_two⟩, quietTime, .trySend 0 (.array
      [.blob (asBytes "message"), .blob (asBytes "c"), .blob (asBytes "m")])⟩

/-- The replies: to the subscription, and how many deliveries there were. -/
def subscribeAndPublishReplies (channel : Bytes) (deliveries : Int64)
    (request : Fin 2) : Session 1 RespValue :=
  if request.val = 0 then
    .pure (.array [.blob (asBytes "subscribe"), .blob channel, .integer 2])
  else .pure (.integer deliveries)

/-- A connection that subscribes to two channels gets the message once. -/
theorem deliversOnce_of_newSubscriptions_two :
    DeliversOnce (asBytes "c") (1 : Fin 2) ServerState.fresh
      (subscribeAndPublishEvents [asBytes "d", asBytes "c"] 1)
      (subscribeAndPublishReplies (asBytes "d") 1)
      (Event.after ServerCall.execAmong ServerState.fresh
        (subscribeAndPublishEvents [asBytes "d", asBytes "c"] 1)) := by
  refine deliversOnce_of_newSubscriptions
    (subscribeAndPublish [asBytes "d", asBytes "c"]) (fun _ => rfl) ?_ ?_ 1
    (asBytes "c") (asBytes "m") rfl
  · refine .cons _ _ rfl (.cons _ _ rfl (.cons _ _ rfl (.done ?_)))
    funext request
    fin_cases request <;> rfl
  · refine ⟨?_, ?_, ?_, trivial⟩
    · intro sender channels isSubscribe
      cases isSubscribe
      exact ⟨by decide, fun channel _ => List.not_mem_nil⟩
    · intro sender channels isSubscribe
      cases isSubscribe
    · intro sender channels isSubscribe
      cases isSubscribe

/-- One that names a channel twice gets it twice, and is counted twice. -/
theorem not_always_deliversOnce :
    ¬∀ (n clients : ℕ) (requests : Fin clients → ChannelRequest)
      (state last : ServerState n) (events : List (ChannelEvent n (Fin clients)))
      (final : Fin clients → Session n RespValue) (publisher : Fin clients)
      (channel message : Bytes),
      (∀ channel, state.channels channel = []) →
        Interleaving ServerCall.execAmong (fun request => (requests request).session)
          state events final last →
        requests publisher = .publish [channel, message] →
        DeliversOnce channel publisher state events final last := by
  intro always
  have run : Interleaving ServerCall.execAmong
      (fun request => (subscribeAndPublish [asBytes "c", asBytes "c"] request).session)
      ServerState.fresh (subscribeAndPublishEvents [asBytes "c", asBytes "c"] 2)
      (subscribeAndPublishReplies (asBytes "c") 2)
      (Event.after ServerCall.execAmong ServerState.fresh
        (subscribeAndPublishEvents [asBytes "c", asBytes "c"] 2)) := by
    refine .cons _ _ rfl (.cons _ _ rfl (.cons _ _ rfl (.cons _ _ rfl (.done ?_))))
    funext request
    fin_cases request <;> rfl
  have deliversOnce := always 1 2 _ _ _ _ _ 1 (asBytes "c") (asBytes "m")
    (fun _ => rfl) run rfl
  exact absurd (deliversOnce.once 0) (by decide)

end Cache
end MuonJs
