import MuonJs.Cache.Scan
import MuonJs.Cache.Sessions
import MuonJs.Lib.Interleaving

/-!
# Calls that do not conflict

A call holds the locks of the shards of its keys, and touches the entries under its keys.
It leaves the other entries alone and does not look at them, so calls on different keys
commute.  A call that only reads leaves the
entries alone that are live, so two of them commute where nothing expires.
The log is left out of what commutes: it keeps the order of its entries.
-/

namespace MuonJs
namespace Cache

/-! ## Locks -/

namespace Db

/-- Databases with the same shards are equal. -/
theorem ext_shards {left right : Db} (agree : ∀ index, left.shards index = right.shards index) :
    left = right := by
  cases left
  cases right
  congr
  funext index
  exact agree index

/-- A single-key method leaves the shards of other keys alone. -/
theorem shards_access_of_ne
    (db : Db) (key : Bytes) (method : EntryFn α) {index : Fin numShards}
    (other : index ≠ shardIndex key) :
    (db.access key method).2.shards index = db.shards index :=
  if_neg other

end Db

namespace Call

/-- The shards whose locks a call holds. -/
def locks : Call → Set (Fin numShards)
  | .entry key _ => {shardIndex key}
  | .setMove source dest _ => {shardIndex source, shardIndex dest}
  | .shard index _ => {index}

/-- A call leaves the shards that it does not lock alone. -/
theorem shards_exec_of_notMem
    (call : Call) (now : UInt64) (db : Db) {index : Fin numShards}
    (unlocked : index ∉ call.locks) :
    (call.exec now db).2.shards index = db.shards index := by
  cases call with
  | entry key op => exact Db.shards_access_of_ne db key _ unlocked
  | shard other op => exact op.effect_shards_of_ne now unlocked db
  | setMove source dest member =>
      have notSource : index ≠ shardIndex source := fun same => unlocked (.inl same)
      have notDest : index ≠ shardIndex dest := fun same => unlocked (.inr same)
      have settled :
          ((db.dropExpired now source).dropExpired now dest).shards index =
            db.shards index :=
        (Db.shards_access_of_ne _ dest _ notDest).trans
          (Db.shards_access_of_ne _ source _ notSource)
      change (db.setMove now source dest member).2.shards index = _
      unfold Db.setMove
      dsimp only
      split
      case h_1 middle taken =>
        have isTaken := congrArg Prod.snd taken
        rw [Db.shards_access_of_ne _ dest _ notDest, ← settled]
        rw [← show _ = middle from isTaken]
        exact Db.shards_access_of_ne _ source _ notSource
      case h_2 result middle _ taken =>
        have isTaken := congrArg Prod.snd taken
        rw [← settled, ← show _ = middle from isTaken]
        exact Db.shards_access_of_ne _ source _ notSource

end Call

/-! ## Keys -/

namespace Db

/-- The databases have the same entries under the keys of a set. -/
def AgreeOn (keys : Set Bytes) (left right : Db) : Prop :=
  ∀ key ∈ keys, left.lookup key = right.lookup key

section Access

variable {keys : Set Bytes} {left right : Db}

/-- A single-key method leaves the entries under other keys alone. -/
theorem lookup_access_of_ne
    (db : Db) {key other : Bytes} (method : EntryFn α) (different : other ≠ key) :
    (db.access key method).2.lookup other = db.lookup other := by
  rw [lookup_access, if_neg (Ne.symm different)]

/-- A single-key method looks at the entry under its key only. -/
theorem AgreeOn.access
    (agree : AgreeOn keys left right) {key : Bytes} (own : key ∈ keys) (method : EntryFn α) :
    (left.access key method).1 = (right.access key method).1 ∧
      AgreeOn keys (left.access key method).2 (right.access key method).2 := by
  have sameEntry := agree key own
  refine ⟨by rw [access_result, access_result, sameEntry], fun other isOther => ?_⟩
  rw [lookup_access, lookup_access, sameEntry, agree other isOther]

/-- Databases with the same entries under the keys of a shard have the same shard. -/
theorem AgreeOn.shards_eq
    {index : Fin numShards} (agree : AgreeOn {key | shardIndex key = index} left right) :
    left.shards index = right.shards index := by
  apply Std.ExtTreeMap.ext_getElem?
  intro key
  rw [shards_getElem?, shards_getElem?]
  split
  case isTrue own => exact agree key own
  case isFalse => rfl

end Access
end Db

/-! ## Reading -/

namespace Shard

variable {now : UInt64} {entry : Option Entry}

/-- A method that keeps what it is given keeps a live entry. -/
theorem live_of_lives
    (lives : entry.filter (Entry.live now) = entry) {method : EntryFn α}
    (keeps : ∀ stored, (method stored).2 = stored) : (live now method entry).2 = entry := by
  rw [live, keeps, lives]

theorem readAs_of_lives
    (lives : entry.filter (Entry.live now) = entry) (kind : Value → Option β) (found : β → α)
    (missing : α) : (readAs kind found missing now entry).2 = entry := by
  refine live_of_lives lives fun stored => ?_
  cases stored with
  | none => rfl
  | some stored => dsimp only; split <;> rfl

end Shard

/-- A method that only reads keeps an entry that is live, and no entry. -/
theorem EntryOp.apply_reads_of_lives
    (op : EntryOp) (isRead : op.reads = true) {now : UInt64} {entry : Option Entry}
    (lives : ∀ stored, entry = some stored → stored.live now = true) :
    (op.apply now entry).2 = entry := by
  have same : entry.filter (Entry.live now) = entry := by
    cases entry with
    | none => rfl
    | some stored => rw [Option.filter_some, if_pos (lives stored rfl)]
  cases op with
  | keyExists => exact Shard.live_of_lives same fun _ => rfl
  | valueType => exact Shard.live_of_lives same fun _ => rfl
  | ttlMs =>
      cases entry with
      | none => rfl
      | some stored =>
          have isLive := lives stored rfl
          cases expiry : stored.expiresAt with
          | none => simp [apply, Shard.ttlMs, expiry]
          | some ts =>
              have notPassed : ¬ts ≤ now := by
                simpa [Entry.live, Entry.expired, expiry] using isLive
              simp [apply, Shard.ttlMs, expiry, notPassed]
  | getString | listRange | listLen | listIndex | hashGet | hashLen | hashExists
  | hashGetall | setMembers | setIsMember | setCard | zcard | zrange | streamRange
  | streamLen | streamRevRange => exact Shard.readAs_of_lives same _ _ _
  | _ => cases isRead

/-! ## Calls of a database -/

namespace Call

/-- The keys whose entries a call touches. -/
def keys : Call → Set Bytes
  | .entry key _ => {key}
  | .setMove source dest _ => {source, dest}
  | .shard index _ => {key | shardIndex key = index}

/-- A call leaves the entries under other keys alone. -/
theorem lookup_exec_of_notMem
    (call : Call) (now : UInt64) (db : Db) {key : Bytes} (other : key ∉ call.keys) :
    (call.exec now db).2.lookup key = db.lookup key := by
  cases call with
  | entry own op => exact Db.lookup_access_of_ne db _ other
  | shard index op =>
      exact congrArg (fun data : ByteMap Entry => data[key]?)
        (op.effect_shards_of_ne now other db)
  | setMove source dest member =>
      have notSource : key ≠ source := fun same => other (.inl same)
      have notDest : key ≠ dest := fun same => other (.inr same)
      have settled :
          ((db.dropExpired now source).dropExpired now dest).lookup key = db.lookup key :=
        (Db.lookup_access_of_ne _ _ notDest).trans (Db.lookup_access_of_ne _ _ notSource)
      change (db.setMove now source dest member).2.lookup key = _
      unfold Db.setMove
      dsimp only
      split
      case h_1 middle taken =>
        have isTaken := congrArg Prod.snd taken
        rw [Db.lookup_access_of_ne _ _ notDest, ← settled]
        rw [← show _ = middle from isTaken]
        exact Db.lookup_access_of_ne _ _ notSource
      case h_2 result middle _ taken =>
        have isTaken := congrArg Prod.snd taken
        rw [← settled, ← show _ = middle from isTaken]
        exact Db.lookup_access_of_ne _ _ notSource

/-- A call looks at the entries under its keys only. -/
theorem exec_agreeOn
    (call : Call) (now : UInt64) {left right : Db} (agree : Db.AgreeOn call.keys left right) :
    (call.exec now left).1 = (call.exec now right).1 ∧
      Db.AgreeOn call.keys (call.exec now left).2 (call.exec now right).2 := by
  cases call with
  | entry key op => exact agree.access (Set.mem_singleton _) _
  | shard index op =>
      have sameShard : left.shards index = right.shards index := Db.AgreeOn.shards_eq agree
      refine ⟨congrArg (op.result now) sameShard, fun key isOwn => ?_⟩
      have isOwn : shardIndex key = index := isOwn
      have sameAfter :
          (op.effect now index left).shards index = (op.effect now index right).shards index := by
        cases op <;>
          simp [ShardOp.effect, Db.flushShard, Db.purgeShard, Db.onShard, sameShard]
      change ((op.effect now index left).shards (shardIndex key))[key]? =
        ((op.effect now index right).shards (shardIndex key))[key]?
      rw [isOwn, sameAfter]
  | setMove source dest member =>
      have ownSource : source ∈ keys (.setMove source dest member) := .inl rfl
      have ownDest : dest ∈ keys (.setMove source dest member) := .inr rfl
      have settled : Db.AgreeOn (keys (.setMove source dest member))
          ((left.dropExpired now source).dropExpired now dest)
          ((right.dropExpired now source).dropExpired now dest) :=
        ((agree.access ownSource _).2.access ownDest _).2
      have taken := settled.access ownSource (Shard.takeMember member)
      change (left.setMove now source dest member).1 =
          (right.setMove now source dest member).1 ∧
        Db.AgreeOn _ (left.setMove now source dest member).2
          (right.setMove now source dest member).2
      unfold Db.setMove
      dsimp only
      generalize Db.access _ source (Shard.takeMember member) = leftTaken at taken ⊢
      generalize Db.access _ source (Shard.takeMember member) = rightTaken at taken ⊢
      obtain ⟨result, leftAfter⟩ := leftTaken
      obtain ⟨_, rightAfter⟩ := rightTaken
      obtain ⟨rfl, agreeAfter⟩ := taken
      cases result with
      | error reason => exact ⟨rfl, agreeAfter⟩
      | ok moved =>
          cases moved with
          | false => exact ⟨rfl, agreeAfter⟩
          | true => exact agreeAfter.access ownDest (Shard.addMember member)

/-- A call that only reads leaves a live entry alone. -/
theorem lookup_exec_of_reads
    (call : Call) (isRead : call.reads = true) {now : UInt64} {db : Db} {key : Bytes}
    (lives : ∀ stored, db.lookup key = some stored → stored.live now = true) :
    (call.exec now db).2.lookup key = db.lookup key := by
  cases call with
  | entry own op =>
      refine (Db.lookup_access db own key _).trans ?_
      split
      case isTrue same =>
        subst same
        exact op.apply_reads_of_lives isRead lives
      case isFalse => rfl
  | setMove source dest member => cases isRead
  | shard index op =>
      have purges : (Call.exec now (.shard index op) db).2 = db.purgeShard now index := by
        cases op with
        | flush => cases isRead
        | _ => rfl
      rw [purges, Db.lookup_purgeShard]
      split
      case isTrue =>
        cases found : db.lookup key with
        | none => rfl
        | some stored => rw [Option.filter_some, if_pos (lives stored found)]
      case isFalse => rfl

end Call

/-! ## Calls of connections -/

/-- What the state of the server is made of, without its log. -/
inductive ServerPart (n : ℕ)
  | entry (idx : Fin n) (key : Bytes)
  | scripts
  | saved
  | channels
  | queue (receiver : ℕ)

/-- What a part holds. -/
def ServerPart.View : ServerPart n → Type
  | .entry .. => Option Entry
  | .scripts => ScriptCache
  | .saved => Option (Dbs n)
  | .channels => Bytes → List ℕ
  | .queue _ => Option (List RespValue)

/-- The part is no entry, or that of one of the keys. -/
def ServerPart.Lasts (lasting : Set (Fin n × Bytes)) : ServerPart n → Prop
  | .entry idx key => (idx, key) ∈ lasting
  | _ => True

namespace ServerState

/-- A part of the state. -/
def view : (part : ServerPart n) → ServerState n → part.View
  | .entry idx key, state => (state.dbs idx).lookup key
  | .scripts, state => state.scripts
  | .saved, state => state.saved
  | .channels, state => state.channels
  | .queue receiver, state => state.queues receiver

/-- The state without the entries of the log. -/
def withoutLog (state : ServerState n) : ServerState n :=
  { state with log := [] }

theorem view_withoutLog (part : ServerPart n) (state : ServerState n) :
    view part state.withoutLog = view part state := by
  cases part <;> rfl

/-- What is stored under the keys does not expire up to the clock readings. -/
def Lasting (keys : Set (Fin n × Bytes)) (readings : Set UInt64) (state : ServerState n) : Prop :=
  ∀ place ∈ keys, ∀ stored, (state.dbs place.1).lookup place.2 = some stored →
    ∀ now ∈ readings, stored.live now = true

/-- Registering changes the channels only, and depends on them only. -/
theorem foldl_register (sender : ℕ) (names : List Bytes) (state : ServerState n) :
    names.foldl (register sender) state =
      { state with
        channels := names.foldl (fun channels name =>
          Function.update channels name (channels name ++ [sender])) state.channels } := by
  induction names generalizing state with
  | nil => rfl
  | cons name names ih => exact ih (state.register sender name)

end ServerState

namespace ServerCall

/-- What a call does when the entries of the log are left out. -/
def execStore (moment : Moment) (call : ServerCall n) (state : ServerState n) :
    call.Result × ServerState n :=
  ((call.exec moment state).1, (call.exec moment state).2.withoutLog)

/-- What a call does does not depend on the log. -/
theorem execStore_withoutLog
    (moment : Moment) (call : ServerCall n) (state : ServerState n) :
    execStore moment call state.withoutLog =
      ((call.exec moment state).1, (call.exec moment state).2.withoutLog) := by
  cases call with
  | snapshot copies =>
      unfold execStore exec
      cases moment.snapshot <;> rfl
  | subscribe sender channels =>
      unfold execStore exec
      dsimp only
      rw [ServerState.foldl_register, ServerState.foldl_register]
      rfl
  | trySend receiver message =>
      unfold execStore exec ServerState.trySend
      cases waiting : state.queues receiver with
      | none => simp [ServerState.withoutLog, waiting]
      | some waiting' =>
          by_cases hasRoom : waiting'.length < pubsubChannelCapacity
          · simp [ServerState.withoutLog, ServerState.enqueue, waiting, hasRoom]
          · simp [ServerState.withoutLog, waiting, hasRoom]
  | _ => rfl

/-- The parts that a call touches. -/
def touches : ServerCall n → ServerPart n → Prop
  | .db idx call, .entry other key => idx = other ∧ key ∈ call.keys
  | .scripts _, .scripts | .snapshot _, .saved | .subscribe .., .channels
  | .receivers _, .channels => True
  | .trySend receiver _, .queue other => receiver = other
  | _, _ => False

/-- The calls that only look. -/
def reads : ServerCall n → Bool
  | .db _ call => call.reads
  | .scripts (.containsEach _) | .scripts (.get _) => true
  | .scripts _ | .snapshot _ | .subscribe .. | .trySend .. => false
  | .now | .log .. | .check _ | .receivers _ => true

/-- A call leaves the parts alone that it does not touch. -/
theorem view_exec_of_not_touches
    (moment : Moment) (call : ServerCall n) (part : ServerPart n) (state : ServerState n)
    (other : ¬call.touches part) :
    ServerState.view part (execStore moment call state).2 = ServerState.view part state := by
  cases call with
  | db idx call =>
      cases part with
      | entry idx' key =>
          change (Function.update state.dbs idx (call.exec moment.now (state.dbs idx)).2
            idx').lookup key = (state.dbs idx').lookup key
          by_cases same : idx = idx'
          · subst same
            rw [Function.update_self]
            exact call.lookup_exec_of_notMem moment.now _ fun isKey => other ⟨rfl, isKey⟩
          · rw [Function.update_of_ne (Ne.symm same)]
      | _ => rfl
  | scripts op =>
      cases part with
      | scripts => exact absurd trivial other
      | _ => rfl
  | snapshot copies =>
      unfold execStore exec
      cases part with
      | saved => exact absurd trivial other
      | _ => cases moment.snapshot <;> rfl
  | subscribe sender channels =>
      unfold execStore exec
      dsimp only
      rw [ServerState.foldl_register]
      cases part with
      | channels => exact absurd trivial other
      | _ => rfl
  | trySend receiver message =>
      unfold execStore exec ServerState.trySend
      dsimp only
      rw [ServerState.view_withoutLog]
      split
      · rfl
      · split
        · cases part with
          | queue other' => exact Function.update_of_ne (Ne.symm other) _ _
          | _ => rfl
        · rfl
  | now | log | check | receivers => cases part <;> rfl

/-- What a call does depends on the parts only that it touches. -/
theorem exec_congr
    (moment : Moment) (call : ServerCall n) (left right : ServerState n)
    (agree : ∀ part, call.touches part →
      ServerState.view part left = ServerState.view part right) :
    (execStore moment call left).1 = (execStore moment call right).1 ∧
      ∀ part, call.touches part → ServerState.view part (execStore moment call left).2 =
        ServerState.view part (execStore moment call right).2 := by
  cases call with
  | db idx call =>
      have agreeOn : Db.AgreeOn call.keys (left.dbs idx) (right.dbs idx) :=
        fun key isKey => agree (.entry idx key) ⟨rfl, isKey⟩
      obtain ⟨sameResult, agreeAfter⟩ := call.exec_agreeOn moment.now agreeOn
      refine ⟨sameResult, fun part touched => ?_⟩
      cases part with
      | entry other key =>
          obtain ⟨rfl, isKey⟩ := touched
          change (Function.update left.dbs idx _ idx).lookup key =
            (Function.update right.dbs idx _ idx).lookup key
          rw [Function.update_self, Function.update_self]
          exact agreeAfter key isKey
      | _ => cases touched
  | scripts op =>
      have same : left.scripts = right.scripts := agree .scripts trivial
      refine ⟨congrArg (fun cache => (op.apply cache).1) same, fun part touched => ?_⟩
      cases part with
      | scripts => exact congrArg (fun cache => (op.apply cache).2) same
      | _ => cases touched
  | snapshot copies =>
      have same : left.saved = right.saved := agree .saved trivial
      unfold execStore exec
      cases moment.snapshot with
      | ok done =>
          refine ⟨rfl, fun part touched => ?_⟩
          cases part with
          | saved => rfl
          | _ => cases touched
      | error message =>
          refine ⟨rfl, fun part touched => ?_⟩
          cases part with
          | saved => exact same
          | _ => cases touched
  | subscribe sender channels =>
      have same : left.channels = right.channels := agree .channels trivial
      refine ⟨rfl, fun part touched => ?_⟩
      unfold execStore exec
      dsimp only
      rw [ServerState.foldl_register, ServerState.foldl_register, same]
      cases part with
      | channels => rfl
      | _ => cases touched
  | receivers channel =>
      have same : left.channels = right.channels := agree .channels trivial
      refine ⟨congrFun same channel, fun part touched => ?_⟩
      cases part with
      | channels => exact same
      | _ => cases touched
  | trySend receiver message =>
      have same : left.queues receiver = right.queues receiver := agree (.queue receiver) rfl
      unfold execStore exec ServerState.trySend
      dsimp only
      rw [same]
      cases isOpen : right.queues receiver with
      | none =>
          refine ⟨rfl, fun part touched => ?_⟩
          cases part with
          | queue other =>
              cases touched
              exact same
          | _ => cases touched
      | some waiting =>
          dsimp only
          split
          · refine ⟨rfl, fun part touched => ?_⟩
            cases part with
            | queue other =>
                cases touched
                change Function.update left.queues receiver _ receiver =
                  Function.update right.queues receiver _ receiver
                rw [Function.update_self, Function.update_self]
            | _ => cases touched
          · refine ⟨rfl, fun part touched => ?_⟩
            cases part with
            | queue other =>
                cases touched
                exact same
            | _ => cases touched
  | now | log | check => exact ⟨rfl, fun part touched => absurd touched (by cases part <;> exact id)⟩

section Footprints

variable (lasting : Set (Fin n × Bytes)) (readings : Set UInt64)

/-- The invariant of the runs below: nothing is in the log, and what is stored under some
keys does not expire. -/
def Steady (state : ServerState n) : Prop :=
  state.log = [] ∧ state.Lasting lasting readings

/-- What calls have to do with the parts of the state. -/
def footprints : Footprints (S := signature n) execStore (Steady lasting readings) (ServerPart n) where
  View := ServerPart.View
  view := ServerState.view
  touches := touches
  frame := view_exec_of_not_touches
  looks := exec_congr
  ext := by
    intro left right leftSteady rightSteady agree
    have sameDbs : left.dbs = right.dbs := funext fun idx =>
      Db.ext_lookup fun key => agree (.entry idx key)
    have sameQueues : left.queues = right.queues := funext fun receiver =>
      agree (.queue receiver)
    have sameLog : left.log = right.log := leftSteady.1.trans rightSteady.1.symm
    have sameScripts : left.scripts = right.scripts := agree .scripts
    have sameSaved : left.saved = right.saved := agree .saved
    have sameChannels : left.channels = right.channels := agree .channels
    cases left
    cases right
    cases sameDbs
    cases sameQueues
    cases sameLog
    cases sameScripts
    cases sameSaved
    cases sameChannels
    rfl

variable {lasting readings}

/-- A call that only looks leaves what does not expire alone. -/
theorem leaves_of_reads
    {event : Event (signature n) ι Moment} (isReading : event.time.now ∈ readings)
    (isRead : event.request.reads = true) {part : ServerPart n} (lasts : part.Lasts lasting) :
    (footprints lasting readings).Leaves event part := by
  intro state steady
  obtain ⟨thread, moment, call⟩ := event
  cases call with
  | db idx call =>
      cases part with
      | entry other key =>
          change (Function.update state.dbs idx (call.exec moment.now (state.dbs idx)).2
            other).lookup key = (state.dbs other).lookup key
          by_cases same : idx = other
          · subst same
            rw [Function.update_self]
            exact call.lookup_exec_of_reads isRead fun stored found =>
              steady.2 (idx, key) lasts stored found _ isReading
          · rw [Function.update_of_ne (Ne.symm same)]
      | _ => rfl
  | scripts op =>
      cases op with
      | insert | clear => cases isRead
      | containsEach | get => cases part <;> rfl
  | snapshot | subscribe | trySend => cases isRead
  | now | log | check | receivers => cases part <;> rfl

end Footprints

/-- The calls touch no part both, but for parts that do not expire and that both of them
only look at. -/
def Apart (lasting : Set (Fin n × Bytes)) (call other : ServerCall n) : Prop :=
  ∀ part, call.touches part → other.touches part →
    call.reads = true ∧ other.reads = true ∧ part.Lasts lasting

/-- Calls on different keys, or of different databases, are apart. -/
theorem apart_of_keys
    (lasting : Set (Fin n × Bytes)) {idx other : Fin n} {first second : Call}
    (different : idx ≠ other ∨ Disjoint first.keys second.keys) :
    Apart lasting (.db idx first) (.db other second) := by
  intro part isFirst isSecond
  cases part with
  | entry idx' key =>
      obtain ⟨rfl, isKey⟩ := isFirst
      obtain ⟨rfl, isKey'⟩ := isSecond
      rcases different with notSame | disjoint
      · exact absurd rfl notSame
      · exact absurd isKey' (Set.disjoint_left.mp disjoint isKey)
  | _ => cases isFirst

end ServerCall

/-! ## Calls between the calls of a command -/

/-- A call of a connection in a run. -/
abbrev ServerEvent (n : ℕ) (ι : Type) := Event (ServerCall.signature n) ι Moment

namespace ServerEvent

/-- The clock readings of a run. -/
def readings (events : List (ServerEvent n ι)) : Set UInt64 :=
  { now | ∃ event ∈ events, event.time.now = now }

/-- What is stored under the keys at the start, or by a call of the run, does not expire
up to the clock readings of the run. -/
structure Lasts (lasting : Set (Fin n × Bytes)) (state : ServerState n)
    (events : List (ServerEvent n ι)) : Prop where
  start : state.Lasting lasting (readings events)
  keeps : ∀ event ∈ events,
    event.Keeps ServerCall.exec (ServerState.Lasting lasting (readings events))

/-- Between two calls of a thread no other thread makes a call that is not apart from the
later one. -/
def Apart (lasting : Set (Fin n × Bytes)) (thread : ι)
    (events : List (ServerEvent n ι)) : Prop :=
  ∀ first foreign later, [first, foreign, later].Sublist events →
    first.thread = thread → foreign.thread ≠ thread → later.thread = thread →
      foreign.request.Apart lasting later.request

variable {lasting : Set (Fin n × Bytes)} {state : ServerState n} {thread : ι}
  {events : List (ServerEvent n ι)}

theorem Lasts.steady (lasts : Lasts lasting state events) :
    ServerCall.Steady lasting (readings events) state.withoutLog :=
  ⟨rfl, lasts.start⟩

theorem Lasts.keeps_steady
    (lasts : Lasts lasting state events) (event : ServerEvent n ι)
    (isEvent : event ∈ events) :
    event.Keeps ServerCall.execStore (ServerCall.Steady lasting (readings events)) :=
  fun before steady => ⟨rfl, lasts.keeps event isEvent before steady.2⟩

/-- Calls that are apart commute. -/
theorem Apart.undisturbed
    (apart : Apart lasting thread events) (lasts : Lasts lasting state events) :
    Event.Undisturbed ServerCall.execStore (ServerCall.Steady lasting (readings events)) thread
      events := by
  intro first foreign later sublist isFirst isForeign isLater
  have isEvent : foreign ∈ events := sublist.subset (by simp)
  have isEvent' : later ∈ events := sublist.subset (by simp)
  refine (ServerCall.footprints lasting (readings events)).commutes
    (lasts.keeps_steady foreign isEvent) (lasts.keeps_steady later isEvent') ?_
  intro part ofForeign ofLater
  obtain ⟨foreignReads, laterReads, partLasts⟩ :=
    apart first foreign later sublist isFirst isForeign isLater part ofForeign ofLater
  have isReading : foreign.time.now ∈ readings events := ⟨foreign, isEvent, rfl⟩
  have isReading' : later.time.now ∈ readings events := ⟨later, isEvent', rfl⟩
  exact ⟨ServerCall.leaves_of_reads isReading foreignReads partLasts,
    ServerCall.leaves_of_reads isReading' laterReads partLasts⟩

/-- No keys are said to last. -/
theorem lasts_nothing : Lasts ∅ state events :=
  ⟨fun _ isPlace => absurd isPlace (Set.notMem_empty _),
    fun _ _ _ _ _ isPlace => absurd isPlace (Set.notMem_empty _)⟩

/-- A call of another thread between two calls of a thread. -/
theorem apart_of_three
    {first foreign later : ServerEvent n ι}
    (apart : foreign.request.Apart lasting later.request) :
    Apart lasting thread [first, foreign, later] := by
  intro first' foreign' later' sublist _ _ _
  cases sublist.eq_of_length rfl
  exact apart

end ServerEvent
end Cache
end MuonJs
