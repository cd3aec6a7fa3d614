import MuonJs.Cache.Moving

/-!
# The specialised write paths

Several methods of a shard were written more than once, to save allocations:
`hash_set`, `hash_set_ref` and `hash_set_bytes` check the expiry in place,
`set_string_ref` overwrites an entry in place, `set_add_single_bytes` looks
before it inserts, `list_push_x` pushes onto a list that exists.  Each agrees
with its generic form in every state of the key, and pushing several values
agrees with pushing them one at a time.

Two edges are not as stated at first sight: `list_push` without values creates
an empty list, and `list_push_x` drops an entry that is expired.
-/

namespace MuonJs
namespace Cache

namespace HashStore

/-- The linear form finds a value exactly for the fields it holds. -/
theorem isSome_findField (fields : List (Bytes × Bytes)) (field : Bytes) :
    (findField fields field).isSome = true ↔ field ∈ fields.map Prod.fst := by
  rw [findField, Option.isSome_map, List.find?_isSome, List.mem_map]
  simp only [beq_iff_eq]

/-- Inserting a field that is there is overwriting it. -/
theorem insert_of_present
    {store : HashStore} {field : Bytes} (present : (store.get field).isSome = true)
    (value : Bytes) :
    store.insert field value = (store.get field, store.setMut field value) := by
  cases store with
  | linear fields distinct small =>
      have isField := (isSome_findField fields field).mp present
      rw [insert, dif_pos isField]
      rfl
  | map fields => rfl

/-- Inserting a field that is not there finds no old value. -/
theorem insert_of_absent
    {store : HashStore} {field : Bytes} (absent : store.get field = none) (value : Bytes) :
    (store.insert field value).1 = none := by
  cases store with
  | linear fields distinct small =>
      have notField : field ∉ fields.map Prod.fst := by
        rw [← isSome_findField]
        change findField fields field = none at absent
        rw [absent]
        exact Bool.false_ne_true
      rw [insert, dif_neg notField]
      split <;> rfl
  | map fields => exact absent

end HashStore

namespace Shard

/-! ## Hashes -/

theorem hashSetRef_eq_hashSet (field value : Bytes) (now : UInt64) :
    hashSetRef field value now = hashSet field value now := by
  rw [hashSetRef, hashSet]
  congr 1
  funext fields
  by_cases present : (fields.get field).isSome = true
  · rw [if_pos present, HashStore.insert_of_present present]
    obtain ⟨old, isOld⟩ := Option.isSome_iff_exists.mp present
    rw [isOld]
    rfl
  · have absent : fields.get field = none := by
      rwa [Bool.not_eq_true, Option.isSome_eq_false_iff, Option.isNone_iff_eq_none] at present
    rw [if_neg present, HashStore.insert_of_absent absent]
    rfl

/-! ## Strings -/

/-- `Shard::set_string_from_slices`. -/
def setStringFromSlices (value : Bytes) (expireAtMs : Option UInt64) : EntryFn Unit :=
  setStringRef value expireAtMs

theorem setStringRef_eq_setString (value : Bytes) (expireAtMs : Option UInt64) :
    setStringRef value expireAtMs = setString value expireAtMs := by
  funext entry
  cases entry <;> rfl

/-! ## Sets -/

theorem insert_of_contains
    {items : ByteSet} {member : Bytes} (present : items.contains member = true) :
    items.insert member = items := by
  refine Std.ExtTreeSet.ext_mem fun other => ?_
  rw [Std.ExtTreeSet.mem_insert, Std.LawfulEqCmp.compare_eq_iff_eq]
  constructor
  · rintro (rfl | listed)
    · exact present
    · exact listed
  · exact .inr

theorem setAddSingleBytes_eq_setAdd (member : Bytes) (now : UInt64) :
    setAddSingleBytes member now = setAdd [member] now := by
  have single : ∀ items : ByteSet, insertMembers [member] items =
      (if items.contains member then 0 else 1, items.insert member) := fun items => rfl
  have absent : (∅ : ByteSet).contains member = false := Std.ExtTreeSet.contains_empty
  rw [setAddSingleBytes, setAdd, single, absent]
  congr 1
  funext items
  rw [single]
  split
  case isTrue present => rw [insert_of_contains present]
  case isFalse => rfl

/-! ## Lists -/

/-- `list_push_x` on a live list. -/
theorem listPushX_eq_listPush
    {now : UInt64} {stored : Entry} {items : List Bytes}
    (alive : stored.live now = true) (isList : stored.value.asList = some items)
    (values : List Bytes) (left : Bool) :
    listPushX values left now (some stored) = listPush values left now (some stored) := by
  rw [listPushX, listPush, updateAs_of_live alive isList, updateAs_of_live alive isList]

/-- What `list_push` does to the live entry of the key. -/
def pushOnto (values : List Bytes) (left : Bool) (found : Option Entry) :
    Fallible Int64 × Option Entry :=
  match found with
  | some stored =>
      match stored.value.asList with
      | some items =>
          (.ok (lenI64 (pushAll left values items)),
            some (stored.withValue (.list (pushAll left values items))))
      | none => (.error (), found)
  | none =>
      (.ok (lenI64 (pushAll left values [])), some ⟨.list (pushAll left values []), none⟩)

theorem listPush_eq_pushOnto
    (values : List Bytes) (left : Bool) (now : UInt64) (entry : Option Entry) :
    listPush values left now entry = pushOnto values left (entry.filter (Entry.live now)) := by
  rw [listPush, updateAs, live]
  unfold pushOnto
  cases entry.filter (Entry.live now) with
  | none => rfl
  | some stored =>
      dsimp only
      cases stored.value.asList <;> rfl

theorem pushAll_cons (left : Bool) (value : Bytes) (values items : List Bytes) :
    pushAll left (value :: values) items = pushAll left values (pushAll left [value] items) := by
  cases left with
  | true => rfl
  | false => exact (List.append_assoc items [value] values).symm

/-- Pushing one value and then the others is pushing all. -/
theorem pushOnto_cons
    (value : Bytes) (values : List Bytes) (left : Bool) (found : Option Entry) :
    pushOnto values left (pushOnto [value] left found).2 =
      pushOnto (value :: values) left found := by
  unfold pushOnto
  cases found with
  | none =>
      rw [pushAll_cons left value values []]
      rfl
  | some stored =>
      dsimp only
      cases isList : stored.value.asList with
      | none =>
          dsimp only
          rw [isList]
      | some items =>
          dsimp only
          rw [pushAll_cons left value values items]
          rfl

/-- A push leaves an entry that is live as long as the one it found. -/
theorem pushOnto_live
    {found : Option Entry} {later : UInt64} (alive : found.filter (Entry.live later) = found)
    (values : List Bytes) (left : Bool) :
    (pushOnto values left found).2.filter (Entry.live later) =
      (pushOnto values left found).2 := by
  unfold pushOnto
  cases found with
  | none => rfl
  | some stored =>
      have isLive : stored.live later = true := (Option.filter_eq_some_iff.mp alive).2
      dsimp only
      cases stored.value.asList with
      | none => exact alive
      | some items => exact Option.filter_some_pos isLive

end Shard

namespace Db

theorem put_put (db : Db) (key : Bytes) (first second : Option Entry) :
    (db.put key first).put key second = db.put key second := by
  refine ext_lookup fun probe => ?_
  rw [lookup_put, lookup_put, lookup_put]
  split <;> rfl

/-- Methods that agree on the entry of the key act alike. -/
theorem access_congr
    {db : Db} {key : Bytes} {left right : EntryFn α}
    (same : left (db.lookup key) = right (db.lookup key)) :
    db.access key left = db.access key right := by
  rw [access, access, same]

/-- Push values one at a time, each at its reading of the clock; the last result
counts. -/
def pushEach (key : Bytes) (left : Bool) :
    List (UInt64 × Bytes) → Fallible Int64 → Db → Fallible Int64 × Db
  | [], reply, db => (reply, db)
  | (now, value) :: rest, _, db =>
      let outcome := db.access key (Shard.listPush [value] left now)
      pushEach key left rest outcome.1 outcome.2

/-- Pushing one at a time onto the live entry found, as long as it is live. -/
theorem pushEach_eq_pushOnto
    {key : Bytes} {left : Bool} {now : UInt64} {first : Bytes} {rest : List (UInt64 × Bytes)}
    {reply : Fallible Int64} {db : Db}
    (steady : ∀ time ∈ now :: rest.map Prod.fst, db.visible time key = db.visible now key) :
    pushEach key left ((now, first) :: rest) reply db =
      db.access key fun _ =>
        Shard.pushOnto (first :: rest.map Prod.snd) left (db.visible now key) := by
  have pushed : db.access key (Shard.listPush [first] left now) =
      db.access key fun _ => Shard.pushOnto [first] left (db.visible now key) :=
    access_congr (Shard.listPush_eq_pushOnto [first] left now (db.lookup key))
  induction rest generalizing db now first reply with
  | nil =>
      rw [pushEach, pushed]
      rfl
  | cons next rest ih =>
      obtain ⟨time, value⟩ := next
      have live : ∀ later ∈ time :: rest.map Prod.fst,
          (db.access key (Shard.listPush [first] left now)).2.visible later key =
            (Shard.pushOnto [first] left (db.visible now key)).2 := by
        intro later listed
        have agree := steady later (List.mem_cons_of_mem _ listed)
        rw [visible, pushed, lookup_access, if_pos rfl]
        refine Shard.pushOnto_live ?_ [first] left
        rw [← agree, visible, Option.filter_filter]
        simp only [Bool.and_self]
      have isLive := live time List.mem_cons_self
      rw [pushEach, ih (fun later listed => (live later listed).trans isLive.symm)
        (access_congr (Shard.listPush_eq_pushOnto _ _ _ _)), isLive, List.map_cons,
        Shard.pushOnto_cons, pushed]
      unfold access
      dsimp only
      rw [put_put]

/-- Values pushed one at a time, while the entry found does not expire, are
pushed as in one call. -/
theorem pushEach_eq
    {key : Bytes} {left : Bool} {now : UInt64} {first : Bytes} {rest : List (UInt64 × Bytes)}
    {reply : Fallible Int64} {db : Db}
    (steady : ∀ time ∈ rest.map Prod.fst, db.visible time key = db.visible now key) :
    pushEach key left ((now, first) :: rest) reply db =
      db.access key (Shard.listPush (first :: rest.map Prod.snd) left now) := by
  rw [pushEach_eq_pushOnto (List.forall_mem_cons.mpr ⟨rfl, steady⟩)]
  exact (access_congr (Shard.listPush_eq_pushOnto _ left now (db.lookup key))).symm

/-! ## The law -/

/-- At a key of a database the specialised methods do what the generic ones do:
the same result, and the same database after. -/
structure WritePathsAgree (now : UInt64) (db : Db) (key : Bytes) : Prop where
  hashSetRef : ∀ field value, db.access key (Shard.hashSetRef field value now) =
    db.access key (Shard.hashSet field value now)
  hashSetBytes : ∀ field value, db.access key (Shard.hashSetBytes field value now) =
    db.access key (Shard.hashSet field value now)
  setStringRef : ∀ value expireAtMs, db.access key (Shard.setStringRef value expireAtMs) =
    db.access key (Shard.setString value expireAtMs)
  setStringFromSlices : ∀ value expireAtMs,
    db.access key (Shard.setStringFromSlices value expireAtMs) =
      db.access key (Shard.setString value expireAtMs)
  setAddSingleBytes : ∀ member, db.access key (Shard.setAddSingleBytes member now) =
    db.access key (Shard.setAdd [member] now)
  listPushX_live : ∀ stored items, db.visible now key = some stored →
    stored.value.asList = some items → ∀ values left,
      db.access key (Shard.listPushX values left now) =
        db.access key (Shard.listPush values left now)
  listPushX_absent : db.lookup key = none → ∀ values left,
    db.access key (Shard.listPushX values left now) = (.ok 0, db)
  listPushX_expired : db.visible now key = none → ∀ values left,
    db.access key (Shard.listPushX values left now) = (.ok 0, db.dropExpired now key)
  pushEach : ∀ first (rest : List (UInt64 × Bytes)) left reply,
    (∀ time ∈ rest.map Prod.fst, db.visible time key = db.visible now key) →
      Db.pushEach key left ((now, first) :: rest) reply db =
        db.access key (Shard.listPush (first :: rest.map Prod.snd) left now)

/-- The specialised write paths agree with the generic ones in every state. -/
theorem write_paths_agree (now : UInt64) (db : Db) (key : Bytes) :
    WritePathsAgree now db key where
  hashSetRef field value := by rw [Shard.hashSetRef_eq_hashSet]
  hashSetBytes field value := rfl
  setStringRef value expireAtMs := by rw [Shard.setStringRef_eq_setString]
  setStringFromSlices value expireAtMs := by
    rw [Shard.setStringFromSlices, Shard.setStringRef_eq_setString]
  setAddSingleBytes member := by rw [Shard.setAddSingleBytes_eq_setAdd]
  listPushX_live stored items isLive isList values left := by
    obtain ⟨isStored, alive⟩ := Option.filter_eq_some_iff.mp isLive
    apply access_congr
    rw [isStored]
    exact Shard.listPushX_eq_listPush alive isList values left
  listPushX_absent absent values left := by
    have unchanged : db.put key none = db := by
      refine ext_lookup fun probe => ?_
      rw [lookup_put]
      split
      case isTrue same => rw [← same, absent]
      case isFalse => rfl
    rw [access, Shard.listPushX, absent, Shard.updateAs_of_absent rfl, Option.map_none,
      unchanged]
  listPushX_expired missing values left := by
    have dropped : db.dropExpired now key = db.put key none := by
      rw [dropExpired, access, Shard.live]
      exact congrArg (db.put key) missing
    rw [access, Shard.listPushX, Shard.updateAs_of_absent missing, Option.map_none, dropped]
  pushEach first rest left reply steady := pushEach_eq steady

/-- Pushing no value in one call creates a list, and `list_push_x` drops an
expired entry. -/
theorem write_paths_edges :
    (¬∀ (now : UInt64) (db : Db) (key : Bytes) (left : Bool) (reply : Fallible Int64),
      (Db.pushEach key left [] reply db).2 = (db.access key (Shard.listPush [] left now)).2) ∧
    ¬∀ (now : UInt64) (db : Db) (key : Bytes), db.visible now key = none →
      ∀ values left, db.access key (Shard.listPushX values left now) = (.ok 0, db) := by
  constructor
  · intro agree
    have stored := congrArg (fun db => db.lookup [107]) (agree 0 empty [107] false (.ok 0))
    change empty.lookup [107] = (empty.access [107] (Shard.listPush [] false 0)).2.lookup [107]
      at stored
    rw [lookup_access, if_pos rfl, lookup_empty, Shard.listPush, Shard.updateAs_of_absent rfl]
      at stored
    cases stored
  · intro agree
    have isStored : (empty.put [107] (some ⟨.list [[97]], some 1⟩)).lookup [107] =
        some ⟨.list [[97]], some 1⟩ := by
      rw [lookup_put, if_pos rfl]
    have missing : (empty.put [107] (some ⟨.list [[97]], some 1⟩)).visible 2 [107] = none := by
      rw [visible, isStored]
      rfl
    have same := congrArg (fun outcome : Fallible Int64 × Db => outcome.2.lookup [107])
      (agree 2 _ [107] missing [[98]] false)
    dsimp only at same
    rw [lookup_access, if_pos rfl, Shard.listPushX, Shard.updateAs_of_absent missing,
      isStored] at same
    cases same

end Db

end Cache
end MuonJs
