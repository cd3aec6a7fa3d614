import MuonJs.Cache.Commands
import MuonJs.Lib.Trace

/-!
# Stream IDs

`stream_add` derives the next ID from the number of entries the stream holds.
Over any run of calls the IDs are unique and increasing, and every new one is
above all the stream has held, exactly as long as no ID is added to a stream
from which an entry was removed since its key was created.
-/

namespace MuonJs
namespace Cache

/-! ## IDs -/

/-- The numeric part of an ID: the digits before the dash. -/
def idNumber (id : String) : ℕ :=
  Nat.ofDigitChars 10 (id.toList.takeWhile Char.isDigit) 0

/-- The ID that `stream_add` gives the entry of the number. -/
def streamId (number : ℕ) : String := toString number ++ "-0"

@[simp] theorem idNumber_streamId (number : ℕ) : idNumber (streamId number) = number := by
  have digits : (streamId number).toList =
      Nat.toDigits 10 number ++ ['-', '0'] := by
    rw [streamId, String.toList_append, Nat.toString_eq_ofList_toDigits,
      String.toList_ofList]
    rfl
  rw [idNumber, digits, List.takeWhile_append_of_pos]
  · change Nat.ofDigitChars 10 (Nat.toDigits 10 number ++ []) 0 = number
    rw [List.append_nil, Nat.ofDigitChars_ten_toDigits]
  · exact fun digit isDigit =>
      Nat.isDigit_of_mem_toDigits (by decide) (by decide) isDigit

/-- The IDs of the numbers from one to the count. -/
def streamIds (count : ℕ) : List String := (List.range' 1 count).map streamId

theorem mem_streamIds (count : ℕ) (id : String) :
    id ∈ streamIds count ↔ ∃ number, 1 ≤ number ∧ number ≤ count ∧ streamId number = id := by
  rw [streamIds, List.mem_map]
  constructor
  · rintro ⟨number, inRange, isId⟩
    rw [List.mem_range'_1] at inRange
    exact ⟨number, inRange.1, by omega, isId⟩
  · rintro ⟨number, positive, atMost, isId⟩
    exact ⟨number, List.mem_range'_1.mpr ⟨positive, by omega⟩, isId⟩

theorem streamIds_increase (count : ℕ) :
    (streamIds count).Pairwise fun left right => idNumber left < idNumber right := by
  rw [streamIds, List.pairwise_map]
  simp only [idNumber_streamId]
  exact List.pairwise_lt_range'

theorem streamIds_succ (count : ℕ) :
    streamIds (count + 1) = streamIds count ++ [streamId (count + 1)] := by
  rw [streamIds, streamIds, List.range'_1_concat, List.map_append, Nat.add_comm 1]
  rfl

@[simp] theorem length_streamIds (count : ℕ) : (streamIds count).length = count := by
  simp [streamIds]

theorem streamIds_nodup (count : ℕ) : (streamIds count).Nodup := by
  refine (streamIds_increase count).imp fun less same => ?_
  rw [same] at less
  exact lt_irrefl _ less

/-! ## What a call does to a stream -/

/-- The entries of the stream that is stored. -/
def streamOf (entry : Option Entry) : Option (List StreamEntry) :=
  entry.bind fun stored => stored.value.asStream

/-- The IDs of the entries, in list order. -/
def idsOf (items : List StreamEntry) : List String := items.map Prod.fst

/-- The method leaves no stream that was not there. -/
def KeepsStreams (method : EntryFn α) : Prop :=
  ∀ entry, streamOf (method entry).2 = none ∨
    streamOf (method entry).2 = streamOf entry

namespace Shard

theorem live_keepsStreams
    {method : EntryFn α} (keeps : KeepsStreams method) (now : UInt64) :
    KeepsStreams (live now method) := by
  intro entry
  rw [live]
  cases entry with
  | none => exact keeps none
  | some stored =>
      by_cases isLive : stored.live now = true
      · rw [Option.filter_some_pos isLive]
        exact keeps (some stored)
      · rw [Option.filter_some_neg (by simpa using isLive)]
        rcases keeps none with gone | same
        · exact .inl gone
        · exact .inl same

theorem readAs_keepsStreams
    (kind : Value → Option β) (found : β → α) (missing : α) (now : UInt64) :
    KeepsStreams (readAs kind found missing now) := by
  refine live_keepsStreams (fun entry => .inr ?_) now
  cases entry with
  | none => rfl
  | some stored => dsimp only; split <;> rfl

theorem updateAs_keepsStreams
    {kind : Value → Option β} {wrap : β → Value}
    {change : β → Fallible α × Option β}
    {missing : Fallible α × Option Value}
    (otherKind : ∀ content, (wrap content).asStream = none)
    (otherMissing : ∀ value, missing.2 = some value → value.asStream = none)
    (now : UInt64) :
    KeepsStreams (updateAs kind wrap change missing now) := by
  refine live_keepsStreams (fun entry => ?_) now
  cases entry with
  | none =>
      refine .inl ?_
      cases isMissing : missing.2 with
      | none => rfl
      | some value => exact otherMissing value isMissing
  | some stored =>
      dsimp only
      cases kind stored.value with
      | none => exact .inr rfl
      | some content =>
          refine .inl ?_
          dsimp only
          cases (change content).2 with
          | none => rfl
          | some new => exact otherKind new

theorem hashSetWith_keepsStreams
    (insert : HashStore → Fallible Bool × HashStore) (fresh : HashStore)
    (now : UInt64) :
    KeepsStreams (hashSetWith insert fresh now) := by
  intro entry
  cases entry with
  | none => exact .inl rfl
  | some stored =>
      unfold hashSetWith
      dsimp only
      split
      · exact .inl rfl
      · split
        · exact .inl rfl
        · exact .inr rfl

end Shard

namespace EntryOp

/-- The methods that change streams. -/
def onStreams : EntryOp → Bool
  | .streamAdd .. | .streamDel _ => true
  | _ => false

/-- The methods of commands that do not change streams. -/
theorem apply_keepsStreams
    (op : EntryOp) (ofCommand : op.ofCommand = true)
    (other : op.onStreams = false) (now : UInt64) :
    KeepsStreams (op.apply now) := by
  cases op with
  | set value expireAtMs => cases ofCommand
  | streamAdd id fields => cases other
  | streamDel ids => cases other
  | remove => exact fun _ => .inl rfl
  | keyExists => exact Shard.live_keepsStreams (fun _ => .inr rfl) now
  | valueType => exact Shard.live_keepsStreams (fun _ => .inr rfl) now
  | ttlMs =>
      intro entry
      cases entry with
      | none => exact .inl rfl
      | some stored =>
          simp only [apply, Shard.ttlMs]
          split
          · split
            · exact .inl rfl
            · exact .inr rfl
          · exact .inr rfl
  | setExpireMs ttl =>
      intro entry
      cases entry with
      | none => exact .inl rfl
      | some stored => exact .inr rfl
  | persist =>
      refine Shard.live_keepsStreams (fun entry => ?_) now
      cases entry with
      | none => exact .inl rfl
      | some stored => exact .inr rfl
  | setString value expireAtMs => exact fun _ => .inl rfl
  | setStringRef value expireAtMs =>
      intro entry
      cases entry <;> exact .inl rfl
  | setNx value =>
      refine Shard.live_keepsStreams (fun entry => ?_) now
      cases entry with
      | none => exact .inl rfl
      | some stored => exact .inr rfl
  | incrBy delta =>
      refine Shard.live_keepsStreams (fun entry => ?_) now
      cases entry with
      | none => exact .inl rfl
      | some stored =>
          dsimp only
          split
          · exact .inl rfl
          · exact .inr rfl
          · exact .inr rfl
  | hashSet field value => exact Shard.hashSetWith_keepsStreams _ _ now
  | hashSetRef field value => exact Shard.hashSetWith_keepsStreams _ _ now
  | hashSetBytes field value => exact Shard.hashSetWith_keepsStreams _ _ now
  | getString | listRange | listLen | listIndex | hashGet | hashLen | hashExists
  | hashGetall | setMembers | setIsMember | setCard | zcard | zrange | streamRange
  | streamLen | streamRevRange => exact Shard.readAs_keepsStreams _ _ _ now
  | append | listPush | hashIncrBy | hashSetNx | setAdd | setAddSingleBytes | zadd =>
      exact Shard.updateAs_keepsStreams (fun _ => rfl) (by rintro _ ⟨⟩; rfl) now
  | listPop | listSet | listInsert | listRem | listPushX | listTrim | hashDel
  | setRemove | zrem =>
      exact Shard.updateAs_keepsStreams (fun _ => rfl) (by rintro _ ⟨⟩) now

end EntryOp

/-- What a call leaves of the stream under a key. -/
inductive StreamChange (now : UInt64) (call : Call) (key : Bytes)
    (before after : Option Entry) : Prop
  | gone (isGone : streamOf after = none)
  | kept (items rest : List StreamEntry)
      (wasStream : streamOf before = some items)
      (isStream : streamOf after = some rest)
      (isRest : rest.Sublist items)
      (stays : ∀ id fields, call = .entry key (.streamAdd id fields) →
        before.filter (Entry.live now) ≠ none)
  | added (fields : List (Bytes × Bytes)) (items : List StreamEntry)
      (isAdd : call = .entry key (.streamAdd "*" fields))
      (wasStream : streamOf (before.filter (Entry.live now)) = some items)
      (isStream : streamOf after =
        some (items ++ [(streamId (items.length + 1), fields)]))
  | created (fields : List (Bytes × Bytes))
      (isAdd : call = .entry key (.streamAdd "*" fields))
      (wasMissing : before.filter (Entry.live now) = none)
      (isStream : streamOf after = some [(streamId 1, fields)])

/-- A database that keeps every stream it does not lose. -/
def Db.KeepsStreams (before after : Db) : Prop :=
  ∀ key, streamOf (after.lookup key) = none ∨
    streamOf (after.lookup key) = streamOf (before.lookup key)

namespace Db

theorem keepsStreams_access
    {method : EntryFn α} (keeps : Cache.KeepsStreams method)
    (db : Db) (key : Bytes) :
    db.KeepsStreams (db.access key method).2 := by
  intro probe
  rw [lookup_access]
  by_cases own : key = probe
  · rw [if_pos own, ← own]
    exact keeps _
  · rw [if_neg own]
    exact .inr rfl

theorem KeepsStreams.trans
    {first second third : Db}
    (left : first.KeepsStreams second) (right : second.KeepsStreams third) :
    first.KeepsStreams third := by
  intro key
  rcases right key with gone | same
  · exact .inl gone
  · rw [same]
    exact left key

theorem keepsStreams_filter
    {before after : Db} (now : UInt64)
    (isFilter : ∀ key, after.lookup key = before.lookup key ∨
      after.lookup key = none ∨
      after.lookup key = (before.lookup key).filter (Entry.live now)) :
    before.KeepsStreams after := by
  intro key
  rcases isFilter key with same | gone | filtered
  · rw [same]
    exact .inr rfl
  · rw [gone]
    exact .inl rfl
  · rw [filtered]
    exact @Shard.live_keepsStreams Unit (fun entry => ((), entry))
      (fun _ => .inr rfl) now (before.lookup key)

theorem keepsStreams_flushShard (db : Db) (now : UInt64) (index : Fin numShards) :
    db.KeepsStreams (db.flushShard index) := by
  refine keepsStreams_filter now fun key => ?_
  rw [lookup_flushShard]
  split
  · exact .inr (.inl rfl)
  · exact .inl rfl

theorem keepsStreams_purgeShard (db : Db) (now : UInt64) (index : Fin numShards) :
    db.KeepsStreams (db.purgeShard now index) := by
  refine keepsStreams_filter now fun key => ?_
  rw [lookup_purgeShard]
  split
  · exact .inr (.inr rfl)
  · exact .inl rfl

theorem takeMember_keepsStreams (member : Bytes) :
    Cache.KeepsStreams (Shard.takeMember member) := by
  intro entry
  unfold Shard.takeMember
  cases entry with
  | none => exact .inl rfl
  | some stored =>
      dsimp only
      split
      · exact .inr rfl
      · split
        · refine .inl ?_
          dsimp only
          split <;> rfl
        · exact .inr rfl

theorem addMember_keepsStreams (member : Bytes) :
    Cache.KeepsStreams (Shard.addMember member) := by
  intro entry
  unfold Shard.addMember
  cases entry with
  | none => exact .inl rfl
  | some stored =>
      dsimp only
      split
      · exact .inr rfl
      · exact .inl rfl

theorem keepsStreams_dropExpired (db : Db) (now : UInt64) (key : Bytes) :
    db.KeepsStreams (db.dropExpired now key) :=
  keepsStreams_access (Shard.live_keepsStreams (fun _ => .inr rfl) now) db key

theorem keepsStreams_setMove
    (db : Db) (now : UInt64) (source dest member : Bytes) :
    db.KeepsStreams (db.setMove now source dest member).2 := by
  have settled := (keepsStreams_dropExpired db now source).trans
    (keepsStreams_dropExpired _ now dest)
  have taken := settled.trans
    (keepsStreams_access (takeMember_keepsStreams member) _ source)
  have moved := taken.trans
    (keepsStreams_access (addMember_keepsStreams member) _ dest)
  unfold setMove
  dsimp only
  split
  · rename_i after isTaken
    rw [isTaken] at moved
    exact moved
  · rename_i isTaken
    rw [isTaken] at taken
    exact taken

end Db

namespace Shard

/-- The live part of an entry that is a stream is the entry. -/
theorem streamOf_of_live
    {now : UInt64} {entry : Option Entry} {items : List StreamEntry}
    (isStream : streamOf (entry.filter (Entry.live now)) = some items) :
    streamOf entry = some items := by
  cases entry with
  | none => exact isStream
  | some stored =>
      by_cases isLive : stored.live now = true
      · rwa [Option.filter_some_pos isLive] at isStream
      · rw [Option.filter_some_neg (by simpa using isLive)] at isStream
        cases isStream

/-- A method that leaves the live part of its entry. -/
theorem streamChange_of_live
    (call : Call) (key : Bytes) (now : UInt64) (entry : Option Entry) :
    StreamChange now call key entry (entry.filter (Entry.live now)) := by
  cases isStream : streamOf (entry.filter (Entry.live now)) with
  | none => exact .gone isStream
  | some items =>
      refine .kept items items (streamOf_of_live isStream) isStream
        (List.Sublist.refl items) fun id fields isAdd missing => ?_
      rw [missing] at isStream
      cases isStream

theorem streamAdd_streamChange
    (key : Bytes) (id : String) (fields : List (Bytes × Bytes))
    (now : UInt64) (entry : Option Entry) :
    StreamChange now (.entry key (.streamAdd id fields)) key entry
      (streamAdd id fields now entry).2 := by
  unfold streamAdd
  split
  · rename_i automatic
    subst automatic
    unfold updateAs live
    cases isLive : entry.filter (Entry.live now) with
    | none => exact .created fields rfl isLive rfl
    | some stored =>
        dsimp only
        cases isStream : stored.value.asStream with
        | none => exact .gone isStream
        | some items =>
            exact .added fields items rfl (by rw [isLive]; exact isStream) rfl
  · exact streamChange_of_live _ key now entry

theorem streamDel_streamChange
    (key : Bytes) (ids : List String)
    (now : UInt64) (entry : Option Entry) :
    StreamChange now (.entry key (.streamDel ids)) key entry
      (streamDel ids now entry).2 := by
  unfold streamDel updateAs live
  cases isLive : entry.filter (Entry.live now) with
  | none => exact .gone rfl
  | some stored =>
      dsimp only
      cases isStream : stored.value.asStream with
      | none => exact .gone isStream
      | some items =>
          refine .kept items _ (@streamOf_of_live now _ _ ?_) rfl
            List.filter_sublist nofun
          rw [isLive]
          exact isStream

end Shard

/-- What a call of a command does to the stream under a key. -/
theorem Call.streamChange
    (call : Call) (ofCommand : call.ofCommand = true)
    (now : UInt64) (db : Db) (key : Bytes) :
    StreamChange now call key (db.lookup key)
      ((call.exec now db).2.lookup key) := by
  have ofKeeps (keeps : db.KeepsStreams (call.exec now db).2)
      (notAdd : ∀ id fields, call ≠ .entry key (.streamAdd id fields)) :
      StreamChange now call key (db.lookup key)
        ((call.exec now db).2.lookup key) := by
    rcases keeps key with gone | same
    · exact .gone gone
    · cases wasStream : streamOf (db.lookup key) with
      | none => exact .gone (same.trans wasStream)
      | some items =>
          exact .kept items items wasStream (same.trans wasStream)
            (List.Sublist.refl items) fun id fields isAdd =>
              absurd isAdd (notAdd id fields)
  cases call with
  | setMove source dest member =>
      exact ofKeeps (Db.keepsStreams_setMove db now source dest member) nofun
  | shard index op =>
      cases op with
      | flush => exact ofKeeps (Db.keepsStreams_flushShard db now index) nofun
      | _ => exact ofKeeps (Db.keepsStreams_purgeShard db now index) nofun
  | entry probe op =>
      cases other : op.onStreams with
      | false =>
          refine ofKeeps (Db.keepsStreams_access
            (op.apply_keepsStreams ofCommand other now) db probe) ?_
          rintro id fields isAdd
          cases isAdd
          cases other
      | true =>
          by_cases own : probe = key
          · subst own
            rw [exec, Db.lookup_access, if_pos rfl]
            cases op with
            | streamAdd id fields =>
                exact Shard.streamAdd_streamChange probe id fields now _
            | streamDel ids => exact Shard.streamDel_streamChange probe ids now _
            | _ => cases other
          · rw [exec, Db.lookup_access, if_neg own]
            cases wasStream : streamOf (db.lookup key) with
            | none => exact .gone wasStream
            | some items =>
                refine .kept items items wasStream wasStream
                  (List.Sublist.refl items) fun id fields isAdd => ?_
                cases isAdd
                exact absurd rfl own

/-! ## Histories -/

/-- A call of a command with its clock reading. -/
structure TimedCall where
  now : UInt64
  call : Call
  ofCommand : call.ofCommand = true

/-- A database, and for each key the IDs its stream has held since the key was
created. -/
structure StreamHistory where
  db : Db
  held : Bytes → List String

namespace StreamHistory

/-- No stream was stored under the key, or `stream_add` found no live entry
there. -/
def creates (db : Db) (event : TimedCall) (key : Bytes) : Bool :=
  (streamOf (db.lookup key)).isNone ||
    match event.call with
    | .entry probe (.streamAdd ..) =>
        probe == key && (db.visible event.now key).isNone
    | _ => false

/-- What the stream under the key has held, as the call goes on with it. -/
def heldBefore (history : StreamHistory) (event : TimedCall) (key : Bytes) :
    List String :=
  if creates history.db event key then [] else history.held key

/-- One call. -/
def step (history : StreamHistory) (event : TimedCall) : StreamHistory :=
  let db := (event.call.exec event.now history.db).2
  { db := db
    held := fun key =>
      match streamOf (db.lookup key) with
      | none => []
      | some items => history.heldBefore event key ++ idsOf items }

/-- An empty database. -/
def start : StreamHistory := ⟨Db.empty, fun _ => []⟩

/-- The key of a successful `stream_add` and the ID it returns. -/
def addedId (db : Db) (event : TimedCall) : Option (Bytes × String) :=
  match event.call with
  | .entry key (.streamAdd id fields) =>
      match (Shard.streamAdd id fields event.now (db.lookup key)).1 with
      | .ok id => some (key, id)
      | .error () => none
  | _ => none

/-- In every stream the IDs are distinct and their numbers increase. -/
def Ordered (db : Db) : Prop :=
  ∀ key items, streamOf (db.lookup key) = some items →
    (idsOf items).Nodup ∧
      (idsOf items).Pairwise fun left right => idNumber left < idNumber right

/-- After the call the streams are ordered, and an ID that it adds is above all
that its stream has held. -/
def KeepsOrder (history : StreamHistory) (event : TimedCall) : Prop :=
  Ordered (history.step event).db ∧
    ∀ key id, addedId history.db event = some (key, id) →
      ∀ old ∈ history.heldBefore event key, idNumber old < idNumber id

/-- A `stream_add` finds all that its stream has held: no entry was removed
from it since the key was created. -/
def FindsAll (history : StreamHistory) (event : TimedCall) : Prop :=
  ∀ key fields, event.call = .entry key (.streamAdd "*" fields) →
    ∀ old ∈ history.heldBefore event key,
      ∃ items, streamOf (history.db.lookup key) = some items ∧ old ∈ idsOf items

/-- Every stream holds some of the IDs from one to a count, in order, and has
held all of them. -/
def Invariant (history : StreamHistory) : Prop :=
  ∀ key items, streamOf (history.db.lookup key) = some items →
    ∃ count, (idsOf items).Sublist (streamIds count) ∧
      ∀ old, old ∈ history.held key ↔ old ∈ streamIds count

theorem Invariant.ordered
    {history : StreamHistory} (invariant : history.Invariant) :
    Ordered history.db := by
  intro key items isStream
  obtain ⟨count, isPart, -⟩ := invariant key items isStream
  exact ⟨(streamIds_nodup count).sublist isPart,
    (streamIds_increase count).sublist isPart⟩

/-- A part that has every element of a list without repetitions is the list. -/
theorem eq_of_sublist_of_subset
    {part whole : List String} (isPart : part.Sublist whole)
    (distinct : whole.Nodup) (all : ∀ id ∈ whole, id ∈ part) :
    part = whole :=
  isPart.eq_of_length_le
    (distinct.subperm all).length_le

/-- On a live stream, going on with it. -/
theorem heldBefore_of_live
    {history : StreamHistory} {event : TimedCall} {key : Bytes}
    {items : List StreamEntry}
    (isStream : streamOf (history.db.lookup key) = some items)
    (stays : ∀ id fields, event.call = .entry key (.streamAdd id fields) →
      history.db.visible event.now key ≠ none) :
    history.heldBefore event key = history.held key := by
  unfold heldBefore creates
  rw [isStream, Option.isNone_some, Bool.false_or, if_neg]
  split
  · rename_i probe id fields isAdd
    rw [Bool.and_eq_true, beq_iff_eq, Option.isNone_iff_eq_none]
    rintro ⟨rfl, missing⟩
    exact stays id fields isAdd missing
  · exact Bool.false_ne_true

/-- On a missing key, `stream_add` starts anew. -/
theorem heldBefore_of_missing
    {history : StreamHistory} {event : TimedCall} {key : Bytes}
    {id : String} {fields : List (Bytes × Bytes)}
    (isAdd : event.call = .entry key (.streamAdd id fields))
    (missing : history.db.visible event.now key = none) :
    history.heldBefore event key = [] := by
  unfold heldBefore creates
  rw [isAdd, missing]
  simp

theorem held_step
    {history : StreamHistory} {event : TimedCall} {key : Bytes}
    {items : List StreamEntry}
    (isStream : streamOf ((history.step event).db.lookup key) = some items) :
    (history.step event).held key =
      history.heldBefore event key ++ idsOf items := by
  unfold step at isStream ⊢
  dsimp only at isStream ⊢
  rw [isStream]

/-- The stream that a `stream_add` finds live has held all IDs up to its
count, and with all of them still there it holds just these. -/
theorem idsOf_of_findsAll
    {history : StreamHistory} {event : TimedCall}
    (finds : history.FindsAll event)
    {key : Bytes} {fields : List (Bytes × Bytes)} {items : List StreamEntry}
    (isAdd : event.call = .entry key (.streamAdd "*" fields))
    (isStream : streamOf (history.db.lookup key) = some items)
    (sameHeld : history.heldBefore event key = history.held key)
    {count : ℕ} (isPart : (idsOf items).Sublist (streamIds count))
    (hasHeld : ∀ old, old ∈ history.held key ↔ old ∈ streamIds count) :
    idsOf items = streamIds count := by
  apply eq_of_sublist_of_subset isPart (streamIds_nodup count)
  intro old isOld
  have wasHeld : old ∈ history.heldBefore event key := by
    rw [sameHeld]
    exact (hasHeld old).mpr isOld
  obtain ⟨found, isFound, inFound⟩ := finds key fields isAdd old wasHeld
  rw [isStream] at isFound
  cases isFound
  exact inFound

theorem visible_ne_none
    {db : Db} {now : UInt64} {key : Bytes} {items : List StreamEntry}
    (isStream : streamOf (db.visible now key) = some items) :
    db.visible now key ≠ none := by
  intro missing
  rw [missing] at isStream
  cases isStream

/-- Step lemma: a call that finds all keeps the invariant. -/
theorem Invariant.step
    {history : StreamHistory} {event : TimedCall}
    (invariant : history.Invariant) (finds : history.FindsAll event) :
    (history.step event).Invariant := by
  intro key items isStream
  have sameHeld := held_step isStream
  rcases event.call.streamChange event.ofCommand event.now history.db key with
    isGone | ⟨before, rest, wasStream, isRest, isPart, stays⟩ |
    ⟨fields, before, isAdd, wasStream, isAdded⟩ | ⟨fields, isAdd, missing, isNew⟩
  · exact absurd (isGone.symm.trans isStream) nofun
  · obtain rfl : rest = items := Option.some.inj (isRest.symm.trans isStream)
    obtain ⟨count, inIds, hasHeld⟩ := invariant key before wasStream
    have restPart := (isPart.map Prod.fst).trans inIds
    refine ⟨count, restPart, fun old => ?_⟩
    rw [sameHeld, heldBefore_of_live wasStream stays, List.mem_append, hasHeld]
    exact ⟨fun isOld => isOld.elim id fun inRest => restPart.subset inRest, .inl⟩
  · obtain rfl := Option.some.inj (isAdded.symm.trans isStream)
    have before_eq := Shard.streamOf_of_live wasStream
    obtain ⟨count, inIds, hasHeld⟩ := invariant key before before_eq
    have goesOn := @heldBefore_of_live history event key before before_eq
      fun _ _ _ => visible_ne_none wasStream
    have allIds := idsOf_of_findsAll finds isAdd before_eq goesOn inIds hasHeld
    have length_eq : before.length = count := by
      rw [← length_streamIds count, ← allIds, idsOf, List.length_map]
    have newIds : idsOf (before ++ [(streamId (before.length + 1), fields)]) =
        streamIds (count + 1) := by
      rw [idsOf, List.map_append, streamIds_succ, ← length_eq]
      rw [← length_eq] at allIds
      rw [← allIds]
      rfl
    refine ⟨count + 1, newIds ▸ List.Sublist.refl _, fun old => ?_⟩
    rw [sameHeld, goesOn, List.mem_append, hasHeld, newIds, streamIds_succ,
      List.mem_append]
    exact ⟨fun isOld => isOld.elim .inl id, .inr⟩
  · obtain rfl := Option.some.inj (isNew.symm.trans isStream)
    refine ⟨1, List.Sublist.refl _, fun old => ?_⟩
    rw [sameHeld, heldBefore_of_missing isAdd missing]
    rfl

/-- A successful `stream_add` creates its stream or adds the ID after the number
of entries. -/
theorem addedId_eq_some
    {db : Db} {event : TimedCall} {key : Bytes} {id : String}
    (adds : addedId db event = some (key, id)) :
    ∃ fields, event.call = .entry key (.streamAdd "*" fields) ∧
      (db.visible event.now key = none ∨
        ∃ items, streamOf (db.visible event.now key) = some items ∧
          id = streamId (items.length + 1)) := by
  unfold addedId at adds
  split at adds
  · rename_i probe text fields isAdd
    unfold Shard.streamAdd at adds
    by_cases automatic : text = "*"
    · rw [if_pos automatic] at adds
      subst automatic
      unfold Shard.updateAs Shard.live at adds
      rw [show (db.lookup probe).filter (Entry.live event.now) =
        db.visible event.now probe from rfl] at adds
      cases found : db.visible event.now probe with
      | none =>
          rw [found] at adds
          cases adds
          exact ⟨fields, isAdd, .inl found⟩
      | some stored =>
          rw [found] at adds
          dsimp only at adds
          cases isStream : stored.value.asStream with
          | none => rw [isStream] at adds; cases adds
          | some items =>
              rw [isStream] at adds
              cases adds
              exact ⟨fields, isAdd, .inr ⟨items, by rw [found]; exact isStream, rfl⟩⟩
    · rw [if_neg automatic] at adds
      cases adds
  · cases adds

theorem addedId_of_live
    {db : Db} {event : TimedCall} {key : Bytes}
    {fields : List (Bytes × Bytes)} {items : List StreamEntry}
    (isAdd : event.call = .entry key (.streamAdd "*" fields))
    (isStream : streamOf (db.visible event.now key) = some items) :
    addedId db event = some (key, streamId (items.length + 1)) := by
  have result : (Shard.streamAdd "*" fields event.now (db.lookup key)).1 =
      .ok (streamId (items.length + 1)) := by
    unfold Shard.streamAdd Shard.updateAs Shard.live
    rw [if_pos rfl, show (db.lookup key).filter (Entry.live event.now) =
      db.visible event.now key from rfl]
    cases found : db.visible event.now key with
    | none => rw [found] at isStream; cases isStream
    | some stored =>
        rw [found] at isStream
        dsimp only
        rw [show stored.value.asStream = some items from isStream]
        rfl
  unfold addedId
  rw [isAdd]
  dsimp only
  rw [result]

/-- A live stream is the stream that is stored. -/
theorem streamOf_visible
    {db : Db} {now : UInt64} {key : Bytes} {items : List StreamEntry}
    (isStream : streamOf (db.lookup key) = some items)
    (isLive : db.visible now key ≠ none) :
    streamOf (db.visible now key) = some items := by
  obtain ⟨stored, found⟩ := Option.ne_none_iff_exists'.mp isLive
  have isStored := (Option.filter_eq_some_iff.mp found).1
  rw [found, ← isStored, isStream]

/-- In a state with the invariant, a call keeps the order exactly when it finds
all. -/
theorem keepsOrder_iff
    {history : StreamHistory} (invariant : history.Invariant)
    (event : TimedCall) :
    history.KeepsOrder event ↔ history.FindsAll event := by
  constructor
  · rintro ⟨-, above⟩ key fields isAdd old isOld
    have isLive : history.db.visible event.now key ≠ none := by
      intro missing
      rw [heldBefore_of_missing isAdd missing] at isOld
      cases isOld
    cases isStream : streamOf (history.db.lookup key) with
    | none =>
        unfold heldBefore creates at isOld
        rw [isStream, Option.isNone_none, Bool.true_or, if_pos rfl] at isOld
        cases isOld
    | some items =>
        refine ⟨items, rfl, ?_⟩
        obtain ⟨count, inIds, hasHeld⟩ := invariant key items isStream
        have sameHeld := @heldBefore_of_live history event key items isStream
          fun _ _ _ => isLive
        rw [sameHeld, hasHeld] at isOld
        obtain ⟨number, positive, atMost, -⟩ := (mem_streamIds count old).mp isOld
        have lastHeld : streamId count ∈ history.heldBefore event key := by
          rw [sameHeld, hasHeld, mem_streamIds]
          exact ⟨count, positive.trans atMost, le_rfl, rfl⟩
        have less := above key _ (addedId_of_live isAdd
          (streamOf_visible isStream isLive)) _ lastHeld
        rw [idNumber_streamId, idNumber_streamId] at less
        have allIds : idsOf items = streamIds count := by
          apply inIds.eq_of_length_le
          rw [length_streamIds, idsOf, List.length_map]
          omega
        rw [allIds]
        exact isOld
  · intro finds
    refine ⟨(invariant.step finds).ordered, fun key id adds old isOld => ?_⟩
    obtain ⟨fields, isAdd, missing | ⟨items, isStream, rfl⟩⟩ := addedId_eq_some adds
    · rw [heldBefore_of_missing isAdd missing] at isOld
      cases isOld
    · have stored := Shard.streamOf_of_live isStream
      obtain ⟨count, inIds, hasHeld⟩ := invariant key items stored
      have sameHeld := @heldBefore_of_live history event key items stored
        fun _ _ _ => visible_ne_none isStream
      have allIds := idsOf_of_findsAll finds isAdd stored sameHeld inIds hasHeld
      rw [sameHeld, hasHeld] at isOld
      obtain ⟨number, -, atMost, rfl⟩ := (mem_streamIds count old).mp isOld
      have length_eq : items.length = count := by
        rw [← length_streamIds count, ← allIds, idsOf, List.length_map]
      rw [idNumber_streamId, idNumber_streamId]
      omega

/-- In every run from an empty database, the streams stay in order at every step
exactly when no `stream_add` is made on a stream from which an entry was
removed since its key was created. -/
theorem keepsOrder_run_iff (events : List TimedCall) :
    Trace.Along step KeepsOrder start events ↔
      Trace.Along step FindsAll start events := by
  have fromInvariant : ∀ history, Invariant history →
      (Trace.Along step KeepsOrder history events ↔
        Trace.Along step FindsAll history events) := by
    induction events with
    | nil => exact fun _ _ => Iff.rfl
    | cons event events ih =>
        intro history invariant
        rw [Trace.along_cons, Trace.along_cons, keepsOrder_iff invariant]
        exact and_congr_right fun finds => ih _ (invariant.step finds)
  apply fromInvariant
  intro key items isStream
  rw [start, Db.lookup_empty] at isStream
  cases isStream

/-- Two entries added, the first removed, a third added. -/
def addAddDeleteAdd : List TimedCall :=
  [⟨0, .entry (asBytes "s") (.streamAdd "*" [(asBytes "f", asBytes "v")]), rfl⟩,
    ⟨0, .entry (asBytes "s") (.streamAdd "*" [(asBytes "f", asBytes "v")]), rfl⟩,
    ⟨0, .entry (asBytes "s") (.streamDel ["1-0"]), rfl⟩,
    ⟨0, .entry (asBytes "s") (.streamAdd "*" [(asBytes "f", asBytes "v")]), rfl⟩]

/-- The third entry gets the ID of the second. -/
theorem not_always_keepsOrder :
    ¬∀ events : List TimedCall, Trace.Along step KeepsOrder start events := by
  intro always
  have ordered := (always addAddDeleteAdd).2.2.2.1.1 (asBytes "s")
    [("2-0", [(asBytes "f", asBytes "v")]), ("2-0", [(asBytes "f", asBytes "v")])] (by
      simp only [step, Call.exec, Db.lookup_access, if_true, start,
        Db.lookup_empty]
      rfl)
  exact absurd ordered.1 (by decide)

end StreamHistory

end Cache
end MuonJs
