import MuonJs.Cache.Commands

/-!
# No key holds an empty aggregate

Lists, sets, hashes and sorted sets are created with an element and removed
with their last one.  Every call of a command keeps this, so it holds in every
database that commands reach from the empty one, however their calls interleave.
-/

namespace MuonJs
namespace Cache

/-- The value is no aggregate without elements. -/
def Value.HasElements : Value → Prop
  | .list items => items ≠ []
  | .set members => members ≠ ∅
  | .hash fields => fields.len ≠ 0
  | .zset scores => scores ≠ ∅
  | _ => True

/-- The entry, if any, holds no empty aggregate. -/
def Filled (entry : Option Entry) : Prop :=
  ∀ stored, entry = some stored → stored.value.HasElements

theorem Filled.none : Filled none :=
  fun _ isSome => by cases isSome

theorem Filled.some {stored : Entry} (hasElements : stored.value.HasElements) :
    Filled (some stored) := by
  rintro _ ⟨⟩
  exact hasElements

theorem Filled.filter
    {entry : Option Entry} (filled : Filled entry) (keep : Entry → Bool) :
    Filled (entry.filter keep) :=
  fun stored kept => filled stored (Option.filter_eq_some_iff.mp kept).1

/-! ## Elements that are added -/

namespace HashStore

theorem len_insert (store : HashStore) (field value : Bytes) :
    (store.insert field value).2.len ≠ 0 := by
  have isMap : ∀ fields : ByteMap Bytes, (fields.insert field value).size ≠ 0 :=
    fun _ isZero => Std.ExtTreeMap.insert_ne_empty
      (Std.ExtTreeMap.eq_empty_iff_size_eq_zero.mpr isZero)
  cases store with
  | map fields => exact isMap fields
  | linear fields distinct small =>
      unfold insert
      dsimp only
      split
      · rename_i present
        change (replaceField fields field value).length ≠ 0
        rw [replaceField_length]
        exact fun isEmpty => by
          rw [List.length_eq_zero_iff.mp isEmpty] at present
          cases present
      · split
        · change (fields ++ [(field, value)]).length ≠ 0
          rw [List.length_append]
          exact Nat.succ_ne_zero _
        · exact isMap _

theorem len_setMut {store : HashStore} (hasFields : store.len ≠ 0) (field value : Bytes) :
    (store.setMut field value).len ≠ 0 := by
  cases store with
  | linear fields distinct small =>
      change (replaceField fields field value).length ≠ 0
      rw [replaceField_length]
      exact hasFields
  | map fields =>
      exact fun isZero => Std.ExtTreeMap.insert_ne_empty
        (Std.ExtTreeMap.eq_empty_iff_size_eq_zero.mpr isZero)

end HashStore

namespace Shard

theorem length_pushAll (left : Bool) (values items : List Bytes) :
    (pushAll left values items).length = items.length + values.length := by
  cases left with
  | false => exact List.length_append
  | true =>
      change (values.foldl (fun list value => value :: list) items).length = _
      induction values generalizing items with
      | nil => rfl
      | cons value values ih =>
          rw [List.foldl_cons, ih, List.length_cons, List.length_cons]
          omega

theorem pushAll_ne_nil
    {values : List Bytes} (hasValues : values.isEmpty = false)
    (left : Bool) (items : List Bytes) :
    pushAll left values items ≠ [] := by
  intro isEmpty
  have lengths := length_pushAll left values items
  rw [isEmpty, List.length_nil] at lengths
  have noValues : values = [] := List.length_eq_zero_iff.mp (by omega)
  rw [noValues] at hasValues
  cases hasValues

theorem foldl_insertMembers_ne_empty
    {items : ByteSet} (hasItems : items ≠ ∅) (added : Int64) (members : List Bytes) :
    (members.foldl
      (fun (added, items) member =>
        (if Std.ExtTreeSet.contains items member then added else added + 1,
          items.insert member))
      (added, items)).2 ≠ ∅ := by
  induction members generalizing added items with
  | nil => exact hasItems
  | cons member members ih => exact ih Std.ExtTreeSet.insert_ne_empty _

theorem insertMembers_ne_empty
    {members : List Bytes} (hasMembers : members.isEmpty = false) (items : ByteSet) :
    (insertMembers members items).2 ≠ ∅ := by
  cases members with
  | nil => cases hasMembers
  | cons member members =>
      exact foldl_insertMembers_ne_empty Std.ExtTreeSet.insert_ne_empty _ members

/-! ## Methods that leave no empty aggregate -/

theorem live_filled
    {method : EntryFn α} {now : UInt64} {entry : Option Entry}
    (keeps : ∀ entry, Filled entry → Filled (method entry).2) (filled : Filled entry) :
    Filled (live now method entry).2 :=
  keeps _ (filled.filter _)

theorem readAs_filled
    (kind : Value → Option β) (found : β → α) (missing : α) (now : UInt64)
    {entry : Option Entry} (filled : Filled entry) :
    Filled (readAs kind found missing now entry).2 := by
  refine live_filled (fun entry filled => ?_) filled
  cases entry with
  | none => exact .none
  | some stored =>
      dsimp only
      split <;> exact filled

theorem updateAs_filled
    {kind : Value → Option β} {wrap : β → Value}
    {change : β → Fallible α × Option β}
    {missing : Fallible α × Option Value}
    (changes : ∀ value content new, kind value = some content → value.HasElements →
      (change content).2 = some new → (wrap new).HasElements)
    (creates : ∀ value, missing.2 = some value → value.HasElements)
    (now : UInt64) {entry : Option Entry} (filled : Filled entry) :
    Filled (updateAs kind wrap change missing now entry).2 := by
  refine live_filled (fun entry filled => ?_) filled
  cases entry with
  | none =>
      rintro _ isCreated
      obtain ⟨value, isValue, rfl⟩ := Option.map_eq_some_iff.mp isCreated
      exact creates value isValue
  | some stored =>
      dsimp only
      cases isKind : kind stored.value with
      | none => exact filled
      | some content =>
          rintro _ isChanged
          obtain ⟨new, isNew, rfl⟩ := Option.map_eq_some_iff.mp isChanged
          exact changes _ _ new isKind (filled stored rfl) isNew

theorem hashSetWith_filled
    {insert : HashStore → Fallible Bool × HashStore} {fresh : HashStore}
    (inserts : ∀ fields : HashStore, fields.len ≠ 0 → (insert fields).2.len ≠ 0)
    (hasFields : fresh.len ≠ 0)
    (now : UInt64) {entry : Option Entry} (filled : Filled entry) :
    Filled (hashSetWith insert fresh now entry).2 := by
  cases entry with
  | none => exact .some hasFields
  | some stored =>
      unfold hashSetWith
      dsimp only
      split
      · exact .some hasFields
      · cases content : stored.value.asHash with
        | none => exact filled
        | some fields =>
            have isHash : stored.value = .hash fields := by
              cases value : stored.value with
              | hash other => rw [value] at content; cases content; rfl
              | _ => rw [value] at content; cases content
            have hasElements := filled stored rfl
            rw [isHash] at hasElements
            exact .some (inserts fields hasElements)

/-- What is kept of a list that became empty is nothing. -/
theorem unlessEmpty_ne_nil {items kept : List α} (isKept : unlessEmpty items = some kept) :
    kept ≠ [] := by
  unfold unlessEmpty at isKept
  split at isKept
  · cases isKept
  · rename_i hasItems
    cases isKept
    rintro rfl
    exact hasItems rfl

end Shard

namespace EntryOp

/-- A method that only reads leaves the entry it found, or none. -/
theorem apply_reads_filled
    {op : EntryOp} (isRead : op.reads = true) (now : UInt64)
    {entry : Option Entry} (filled : Filled entry) :
    Filled (op.apply now entry).2 := by
  cases op with
  | keyExists | valueType => exact Shard.live_filled (fun _ filled => filled) filled
  | ttlMs =>
      cases entry with
      | none => exact .none
      | some stored =>
          unfold apply Shard.ttlMs
          dsimp only
          split
          · split
            · exact .none
            · exact filled
          · exact filled
  | getString | listRange | listLen | listIndex | hashGet | hashLen | hashExists
  | hashGetall | setMembers | setIsMember | setCard | zcard | zrange | streamRange
  | streamLen | streamRevRange => exact Shard.readAs_filled _ _ _ now filled
  | _ => cases isRead

/-- A method that a command calls to change an entry leaves no empty aggregate. -/
theorem apply_calledBy_filled
    {op : EntryOp} {cmd : Command} (called : op.calledBy cmd = true) (now : UInt64)
    {entry : Option Entry} (filled : Filled entry) :
    Filled (op.apply now entry).2 := by
  cases op with
  | remove => exact .none
  | setExpireMs ttl =>
      cases entry with
      | none => exact .none
      | some stored => exact .some (filled stored rfl)
  | persist =>
      refine Shard.live_filled (fun entry filled => ?_) filled
      cases entry with
      | none => exact .none
      | some stored => exact .some (filled stored rfl)
  | setString value expireAtMs => exact .some trivial
  | setStringRef value expireAtMs =>
      cases entry with
      | none => exact .some trivial
      | some stored => exact .some trivial
  | setNx value =>
      refine Shard.live_filled (fun entry filled => ?_) filled
      cases entry with
      | none => exact .some trivial
      | some stored => exact filled
  | append value =>
      refine Shard.updateAs_filled ?_ ?_ now filled
      · intro _ _ _ _ _ _
        trivial
      · rintro _ ⟨⟩
        trivial
  | incrBy delta =>
      refine Shard.live_filled (fun entry filled => ?_) filled
      cases entry with
      | none => exact .some trivial
      | some stored =>
          dsimp only
          split
          · exact .some trivial
          · exact filled
          · exact filled
  | listPush values left =>
      have hasValues : values.isEmpty = false := by
        rw [calledBy, Bool.and_eq_true, Bool.not_eq_true'] at called
        exact called.1
      refine Shard.updateAs_filled ?_ ?_ now filled
      · rintro _ items _ _ _ ⟨⟩
        exact Shard.pushAll_ne_nil hasValues left items
      · rintro _ ⟨⟩
        exact Shard.pushAll_ne_nil hasValues left []
  | listPop left =>
      refine Shard.updateAs_filled ?_ (by rintro _ ⟨⟩) now filled
      intro _ items kept _ _ isKept
      split at isKept
      · exact Shard.unlessEmpty_ne_nil isKept
      · exact Shard.unlessEmpty_ne_nil isKept
  | listSet index value =>
      refine Shard.updateAs_filled ?_ (by rintro _ ⟨⟩) now filled
      intro stored items new isList hasElements isNew
      have hasItems : items ≠ [] := by
        cases stored with
        | list stored => cases isList; exact hasElements
        | _ => cases isList
      split at isNew
      · cases isNew
        exact hasItems
      · cases isNew
        intro isEmpty
        apply hasItems
        rw [← List.length_eq_zero_iff, ← @List.length_set Bytes, isEmpty, List.length_nil]
  | listInsert before pivot value =>
      refine Shard.updateAs_filled ?_ (by rintro _ ⟨⟩) now filled
      intro stored items new isList hasElements isNew
      have hasItems : items ≠ [] := by
        cases stored with
        | list stored => cases isList; exact hasElements
        | _ => cases isList
      dsimp only at isNew
      split at isNew
      · cases isNew
        intro isEmpty
        apply hasItems
        rw [← List.length_eq_zero_iff, ← Nat.le_zero, ← @List.length_nil Bytes, ← isEmpty]
        exact List.length_le_length_insertIdx
      · cases isNew
        exact hasItems
  | listRem | listTrim =>
      refine Shard.updateAs_filled ?_ (by rintro _ ⟨⟩) now filled
      intro _ items kept _ _ isKept
      exact Shard.unlessEmpty_ne_nil isKept
  | listPushX values left =>
      have hasValues : values.isEmpty = false := by
        rw [calledBy, Bool.and_eq_true, Bool.not_eq_true'] at called
        exact called.1
      refine Shard.updateAs_filled ?_ (by rintro _ ⟨⟩) now filled
      rintro _ items _ _ _ ⟨⟩
      exact Shard.pushAll_ne_nil hasValues left items
  | hashSetRef field value =>
      have isSingle : (HashStore.withSingle field value).len ≠ 0 := Nat.one_ne_zero
      refine Shard.hashSetWith_filled (fun fields hasFields => ?_) isSingle now filled
      split
      · exact HashStore.len_setMut hasFields field value
      · exact fields.len_insert field value
  | hashDel fields =>
      refine Shard.updateAs_filled ?_ (by rintro _ ⟨⟩) now filled
      intro _ store kept _ _ isKept
      dsimp only at isKept
      split at isKept
      · cases isKept
      · rename_i hasFields
        cases isKept
        exact hasFields
  | hashIncrBy field delta =>
      refine Shard.updateAs_filled ?_ ?_ now filled
      · intro stored fields new isHash hasElements isNew
        dsimp only at isNew
        split at isNew
        · cases isNew
          exact fields.len_insert field _
        · cases isNew
          cases stored with
          | hash stored => cases isHash; exact hasElements
          | _ => cases isHash
      · rintro _ ⟨⟩
        exact Nat.one_ne_zero
  | hashSetNx field value =>
      refine Shard.updateAs_filled ?_ ?_ now filled
      · intro stored fields new isHash hasElements isNew
        split at isNew
        · cases isNew
          cases stored with
          | hash stored => cases isHash; exact hasElements
          | _ => cases isHash
        · cases isNew
          exact fields.len_insert field _
      · rintro _ ⟨⟩
        exact Nat.one_ne_zero
  | setAdd members =>
      have hasMembers : members.isEmpty = false := by
        rw [calledBy, Bool.and_eq_true, Bool.not_eq_true'] at called
        exact called.1
      refine Shard.updateAs_filled ?_ ?_ now filled
      · rintro _ items _ _ _ ⟨⟩
        exact Shard.insertMembers_ne_empty hasMembers items
      · rintro _ ⟨⟩
        exact Shard.insertMembers_ne_empty hasMembers ∅
  | setRemove members =>
      refine Shard.updateAs_filled ?_ (by rintro _ ⟨⟩) now filled
      intro _ items kept _ _ isKept
      dsimp only at isKept
      split at isKept
      · cases isKept
      · rename_i hasItems
        cases isKept
        exact fun isEmpty => hasItems (Std.ExtTreeSet.isEmpty_iff.mpr isEmpty)
  | zadd score member =>
      refine Shard.updateAs_filled ?_ ?_ now filled
      · rintro _ items _ _ _ ⟨⟩
        exact Std.ExtTreeMap.insert_ne_empty
      · rintro _ ⟨⟩
        exact Std.ExtTreeMap.insert_ne_empty
  | zrem members =>
      refine Shard.updateAs_filled ?_ (by rintro _ ⟨⟩) now filled
      intro _ items kept _ _ isKept
      dsimp only at isKept
      split at isKept
      · cases isKept
      · rename_i hasItems
        cases isKept
        exact fun isEmpty => hasItems (Std.ExtTreeMap.isEmpty_iff.mpr isEmpty)
  | streamAdd id fields =>
      change Filled (Shard.streamAdd id fields now entry).2
      unfold Shard.streamAdd
      split
      · refine Shard.updateAs_filled ?_ ?_ now filled
        · intro _ _ _ _ _ _
          trivial
        · rintro _ ⟨⟩
          trivial
      · exact Shard.live_filled (fun _ filled => filled) filled
  | streamDel ids =>
      refine Shard.updateAs_filled ?_ (by rintro _ ⟨⟩) now filled
      intro _ _ _ _ _ _
      trivial
  | _ => cases called

end EntryOp

/-! ## Databases -/

namespace Db

/-- No key holds an empty aggregate. -/
def NoEmpty (db : Db) : Prop := ∀ key, Filled (db.lookup key)

theorem NoEmpty.empty : NoEmpty empty := by
  intro key
  rw [lookup_empty]
  exact .none

theorem NoEmpty.access
    {db : Db} (noEmpty : db.NoEmpty) {key : Bytes} {method : EntryFn α}
    (leaves : Filled (method (db.lookup key)).2) :
    (db.access key method).2.NoEmpty := by
  intro probe
  rw [lookup_access]
  split
  · exact leaves
  · exact noEmpty probe

theorem NoEmpty.dropExpired
    {db : Db} (noEmpty : db.NoEmpty) (now : UInt64) (key : Bytes) :
    (db.dropExpired now key).NoEmpty :=
  noEmpty.access (Shard.live_filled (fun _ filled => filled) (noEmpty key))

end Db

namespace Shard

theorem takeMember_filled
    (member : Bytes) {entry : Option Entry} (filled : Filled entry) :
    Filled (takeMember member entry).2 := by
  cases entry with
  | none => exact .none
  | some stored =>
      unfold takeMember
      dsimp only
      split
      · exact filled
      · split
        · split
          · exact .none
          · rename_i hasMembers
            exact .some fun isEmpty => hasMembers (Std.ExtTreeSet.isEmpty_iff.mpr isEmpty)
        · exact filled

theorem addMember_filled
    (member : Bytes) {entry : Option Entry} (filled : Filled entry) :
    Filled (addMember member entry).2 := by
  cases entry with
  | none => exact .some Std.ExtTreeSet.insert_ne_empty
  | some stored =>
      unfold addMember
      dsimp only
      split
      · exact filled
      · exact .some Std.ExtTreeSet.insert_ne_empty

end Shard

namespace Db

theorem NoEmpty.setMove
    {db : Db} (noEmpty : db.NoEmpty) (now : UInt64) (source dest member : Bytes) :
    (db.setMove now source dest member).2.NoEmpty := by
  have settled := (noEmpty.dropExpired now source).dropExpired now dest
  have taken := settled.access (Shard.takeMember_filled member (settled source))
  unfold Db.setMove
  dsimp only
  split
  · rename_i isTaken
    rw [isTaken] at taken
    exact taken.access (Shard.addMember_filled member (taken dest))
  · rename_i isTaken
    rw [isTaken] at taken
    exact taken

end Db

/-- Every call of a command leaves no empty aggregate. -/
theorem HandlerCall.noEmpty_exec
    {cmd : Command} {args : List Bytes} {call : Call}
    (ofRequest : (HandlerCall.db call).ofRequest cmd args) (now : UInt64)
    {db : Db} (noEmpty : db.NoEmpty) :
    (call.exec now db).2.NoEmpty := by
  cases call with
  | entry key op =>
      rcases ofRequest with isRead | ⟨-, called⟩
      · exact noEmpty.access (op.apply_reads_filled isRead now (noEmpty key))
      · exact noEmpty.access (op.apply_calledBy_filled called now (noEmpty key))
  | setMove source dest member => exact noEmpty.setMove now source dest member
  | shard index op =>
      intro key
      cases op with
      | flush =>
          change Filled ((db.flushShard index).lookup key)
          rw [Db.lookup_flushShard]
          split
          · exact .none
          · exact noEmpty key
      | _ =>
          change Filled ((db.purgeShard now index).lookup key)
          rw [Db.lookup_purgeShard]
          split
          · exact (noEmpty key).filter _
          · exact noEmpty key

/-! ## Runs of commands -/

/-- What every call of a command keeps holds of the database that a handler leaves. -/
theorem Handler.runFrom_keeps
    {property : Db → Prop} {cmd : Command} {args : List Bytes}
    (keeps : ∀ {call : Call} {db : Db} (now : UInt64),
      (HandlerCall.db call).ofRequest cmd args → property db → property (call.exec now db).2)
    {α : Type} {handler : Handler α} (issues : handler.Issues (HandlerCall.ofRequest cmd args))
    {clock : ℕ → UInt64} {state : HandlerState} {tick : ℕ} (holds : property state.db) :
    property (Handler.runFrom clock handler state tick).2.1.db := by
  refine @Program.run_preserves _ _ _ _ (fun reached => property reached.1.db) _
    (fun request state allowed holds => ?_) handler issues (state, tick) holds
  cases request with
  | db call => exact keeps (clock state.2) allowed holds
  | _ => exact holds

namespace Db

/-- The databases that commands reach from the empty one, at any clock readings
and with the calls of other commands between the calls of one. -/
inductive Reached : Db → Prop
  | empty : Reached empty
  | call {db : Db} (reached : Reached db) (now : UInt64)
      {cmd : Command} {args : List Bytes} {call : Call}
      (ofRequest : (HandlerCall.db call).ofRequest cmd args) :
      Reached (call.exec now db).2

theorem Reached.noEmpty {db : Db} (reached : db.Reached) : db.NoEmpty := by
  induction reached with
  | empty => exact .empty
  | call reached now ofRequest ih => exact HandlerCall.noEmpty_exec ofRequest now ih

variable {clock : ℕ → UInt64} {context : HandlerContext} {state : HandlerState}

/-- A command with the clock readings of its calls. -/
structure Request where
  clock : ℕ → UInt64
  context : HandlerContext
  cmd : Command
  args : List Bytes

/-- What the handler of a command leaves. -/
def Request.exec (state : HandlerState) (request : Request) : HandlerState :=
  (Handler.execute request.clock
    (Handler.handleCommand request.context request.cmd request.args) state).2.1

/-- Commands that the handlers run lead from such a database to such a database. -/
theorem Reached.run (reached : state.db.Reached) (requests : List Request) :
    (requests.foldl Request.exec state).db.Reached := by
  induction requests generalizing state with
  | nil => exact reached
  | cons request requests ih =>
      exact ih (@Handler.runFrom_keeps Reached request.cmd request.args
        (fun now ofRequest reached => reached.call now ofRequest) _ _
        Handler.handleCommand_ofRequest _ _ _ reached)

/-- What `EXISTS` replies for one key. -/
theorem execute_exists (key : Bytes) :
    (Handler.execute clock (Handler.handleCommand context .keyExists [key]) state).1 =
      .integer (if (state.db.visible (clock 0) key).isSome then 1 else 0) := rfl

/-- What `TYPE` replies. -/
theorem execute_type (key : Bytes) :
    (Handler.execute clock (Handler.handleCommand context .keyType [key]) state).1 =
      .simple (((state.db.visible (clock 0) key).map fun stored =>
        stored.value.typeName).getD "none") := rfl

/-- The key is live, and its aggregate has an element. -/
def HoldsElements (db : Db) (now : UInt64) (key : Bytes) : Prop :=
  ∃ stored, db.visible now key = some stored ∧ stored.value.HasElements

theorem NoEmpty.isSome_visible_iff
    {db : Db} (noEmpty : db.NoEmpty) (now : UInt64) (key : Bytes) :
    (db.visible now key).isSome = true ↔ db.HoldsElements now key := by
  rw [Option.isSome_iff_exists]
  constructor
  · rintro ⟨stored, isVisible⟩
    exact ⟨stored, isVisible, (noEmpty key).filter _ stored isVisible⟩
  · rintro ⟨stored, isVisible, -⟩
    exact ⟨stored, isVisible⟩

theorem typeName_ne_none (value : Value) : value.typeName ≠ "none" := by
  cases value <;> simp [Value.typeName]

/-- After any commands no key holds an empty aggregate, and `EXISTS` and `TYPE`
report the keys that hold elements.  The commands may start in a database that
others have reached, also with calls of one between the calls of another. -/
theorem Reached.aggregates
    (reached : state.db.Reached) (requests : List Request) (clock : ℕ → UInt64)
    (context : HandlerContext) (key : Bytes) :
    let after := requests.foldl Request.exec state
    Filled (after.db.lookup key) ∧
      ((Handler.execute clock (Handler.handleCommand context .keyExists [key]) after).1 =
          .integer 1 ↔ after.db.HoldsElements (clock 0) key) ∧
      ((Handler.execute clock (Handler.handleCommand context .keyType [key]) after).1 ≠
          .simple "none" ↔ after.db.HoldsElements (clock 0) key) := by
  intro after
  have noEmpty : after.db.NoEmpty := (reached.run requests).noEmpty
  refine ⟨noEmpty key, ?_, ?_⟩
  · rw [execute_exists, ← noEmpty.isSome_visible_iff]
    cases after.db.visible (clock 0) key with
    | none => exact iff_of_false (fun isOne => by cases isOne) Bool.false_ne_true
    | some stored => exact iff_of_true rfl rfl
  · rw [execute_type, ← noEmpty.isSome_visible_iff]
    cases after.db.visible (clock 0) key with
    | none => exact iff_of_false (fun differs => differs rfl) Bool.false_ne_true
    | some stored =>
        refine iff_of_true (fun isNone => ?_) rfl
        exact typeName_ne_none stored.value (RespValue.simple.inj isNone)

/-- `RPUSH k a`, `LPOP k` and `RPUSH k b`. -/
def pushPopPush : List Request :=
  [⟨fun _ => 0, ⟨none, true⟩, .rpush, [asBytes "k", asBytes "a"]⟩,
    ⟨fun _ => 1, ⟨none, true⟩, .lpop, [asBytes "k"]⟩,
    ⟨fun _ => 2, ⟨none, true⟩, .rpush, [asBytes "k", asBytes "b"]⟩]

theorem aggregates_pushPopPush :
    let after := pushPopPush.foldl Request.exec ⟨empty, [], fun _ => none⟩
    Filled (after.db.lookup (asBytes "k")) ∧
      ((Handler.execute (fun _ => 3) (Handler.handleCommand ⟨none, true⟩ .keyExists
          [asBytes "k"]) after).1 = .integer 1 ↔ after.db.HoldsElements 3 (asBytes "k")) ∧
      ((Handler.execute (fun _ => 3) (Handler.handleCommand ⟨none, true⟩ .keyType
          [asBytes "k"]) after).1 ≠ .simple "none" ↔ after.db.HoldsElements 3 (asBytes "k")) :=
  @Reached.aggregates ⟨empty, [], fun _ => none⟩ .empty pushPopPush (fun _ => 3) ⟨none, true⟩
    (asBytes "k")

end Db
end Cache
end MuonJs
