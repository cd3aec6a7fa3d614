import MuonJs.Cache.Db

/-!
# Moving a member between two sets

`set_move` is written twice: inside one shard, and over two locked shards in
either order.  Both are modelled over an arbitrary assignment of keys to shards
and compared with what they do to the entries of the two keys.
-/

namespace MuonJs
namespace Cache
namespace Shard

/-- `if self.is_expired(key) { self.remove(key); }`. -/
def dropExpired (now : UInt64) (key : Bytes) (data : ByteMap Entry) : ByteMap Entry :=
  match data[key]? with
  | some stored => if stored.expired now then data.erase key else data
  | none => data

/-- Take the member out of the source set, which goes when it is empty. -/
def takeOut (source member : Bytes) (data : ByteMap Entry) :
    Fallible Bool × ByteMap Entry :=
  match data[source]? with
  | none => (.ok false, data)
  | some stored =>
      match stored.value.asSet with
      | none => (.error (), data)
      | some items =>
          if items.contains member then
            let data := data.insert source (stored.withValue (.set (items.erase member)))
            (.ok true, if (items.erase member).isEmpty then data.erase source else data)
          else (.ok false, data)

/-- Put the member into the destination set, which is made when it is absent. -/
def putIn (dest member : Bytes) (data : ByteMap Entry) :
    Fallible Bool × ByteMap Entry :=
  match data[dest]? with
  | none => (.ok true, data.insert dest ⟨.set ((∅ : ByteSet).insert member), none⟩)
  | some stored =>
      match stored.value.asSet with
      | none => (.error (), data)
      | some items =>
          (.ok true, data.insert dest (stored.withValue (.set (items.insert member))))

/-- `Shard::set_move`. -/
def setMove (now : UInt64) (source dest member : Bytes) (data : ByteMap Entry) :
    Fallible Bool × ByteMap Entry :=
  let data := dropExpired now source data
  let data := dropExpired now dest data
  match takeOut source member data with
  | (.ok true, data) => putIn dest member data
  | (result, data) => (result, data)

/-- The inlined move of `Db::set_move`, from one shard to another. -/
def setMoveAcross (now : UInt64) (source dest member : Bytes) (src dst : ByteMap Entry) :
    Fallible Bool × ByteMap Entry × ByteMap Entry :=
  let src := dropExpired now source src
  let dst := dropExpired now dest dst
  match takeOut source member src with
  | (.ok true, src) =>
      let (result, dst) := putIn dest member dst
      (result, src, dst)
  | (result, src) => (result, src, dst)

/-! ## Each part acts on one entry -/

/-- An outcome on a shard is a method run on the entry of one key. -/
def ActsAs (method : EntryFn α) (key : Bytes) (data : ByteMap Entry)
    (outcome : α × ByteMap Entry) : Prop :=
  outcome.1 = (method data[key]?).1 ∧
    ∀ probe, outcome.2[probe]? =
      if key = probe then (method data[key]?).2 else data[probe]?

/-- Leaving the entry as it is changes nothing. -/
theorem lookup_unchanged (data : ByteMap Entry) (key probe : Bytes) :
    data[probe]? = if key = probe then data[key]? else data[probe]? := by
  split
  case isTrue same => rw [same]
  case isFalse => rfl

theorem lookup_dropExpired
    (now : UInt64) (key : Bytes) (data : ByteMap Entry) (probe : Bytes) :
    (dropExpired now key data)[probe]? =
      if key = probe then data[key]?.filter (Entry.live now) else data[probe]? := by
  have unchanged := lookup_unchanged data key probe
  rw [dropExpired]
  cases found : data[key]? with
  | none =>
      rw [found] at unchanged
      rw [Option.filter_none]
      exact unchanged
  | some stored =>
      rw [found] at unchanged
      dsimp only
      cases expiry : stored.expired now with
      | true =>
          have dead : stored.live now = false := by rw [Entry.live, expiry]; rfl
          rw [if_pos rfl, ByteMap.lookup_erase, Option.filter_some_neg dead]
      | false =>
          have alive : stored.live now = true := by rw [Entry.live, expiry]; rfl
          rw [if_neg Bool.false_ne_true, Option.filter_some_pos alive]
          exact unchanged

theorem takeOut_actsAs (source member : Bytes) (data : ByteMap Entry) :
    ActsAs (takeMember member) source data (takeOut source member data) := by
  have unchanged := lookup_unchanged data source
  unfold ActsAs takeOut takeMember
  cases found : data[source]? with
  | none =>
      rw [found] at unchanged
      exact ⟨rfl, unchanged⟩
  | some stored =>
      rw [found] at unchanged
      dsimp only
      cases stored.value.asSet with
      | none => exact ⟨rfl, unchanged⟩
      | some items =>
          dsimp only
          cases items.contains member with
          | false => exact ⟨rfl, unchanged⟩
          | true =>
              refine ⟨rfl, fun probe => ?_⟩
              rw [if_pos rfl, if_pos rfl]
              cases (items.erase member).isEmpty with
              | true =>
                  dsimp only
                  rw [if_pos rfl, if_pos rfl, ByteMap.lookup_erase, ByteMap.lookup_insert]
                  split
                  · rfl
                  · rfl
              | false =>
                  dsimp only
                  rw [if_neg Bool.false_ne_true, ByteMap.lookup_insert,
                    if_neg Bool.false_ne_true]

theorem putIn_actsAs (dest member : Bytes) (data : ByteMap Entry) :
    ActsAs (addMember member) dest data (putIn dest member data) := by
  have unchanged := lookup_unchanged data dest
  unfold ActsAs putIn addMember
  cases found : data[dest]? with
  | none =>
      rw [found] at unchanged
      exact ⟨rfl, fun probe => ByteMap.lookup_insert data dest probe _⟩
  | some stored =>
      rw [found] at unchanged
      dsimp only
      cases stored.value.asSet with
      | none => exact ⟨rfl, unchanged⟩
      | some items => exact ⟨rfl, fun probe => ByteMap.lookup_insert data dest probe _⟩

/-- What a move does to the entries of the source and of the destination. -/
def moveOutcome (now : UInt64) (member : Bytes) (source dest : Option Entry) :
    Fallible Bool × Option Entry × Option Entry :=
  match takeMember member (source.filter (Entry.live now)) with
  | (.ok true, source) =>
      ((addMember member (dest.filter (Entry.live now))).1, source,
        (addMember member (dest.filter (Entry.live now))).2)
  | (result, source) => (result, source, dest.filter (Entry.live now))

/-- From one shard to another, a move does what it does to the two entries. -/
theorem setMoveAcross_outcome
    (now : UInt64) (source dest member : Bytes) (src dst : ByteMap Entry) :
    (setMoveAcross now source dest member src dst).1 =
        (moveOutcome now member src[source]? dst[dest]?).1 ∧
      (∀ probe, (setMoveAcross now source dest member src dst).2.1[probe]? =
        if source = probe then (moveOutcome now member src[source]? dst[dest]?).2.1
        else src[probe]?) ∧
      ∀ probe, (setMoveAcross now source dest member src dst).2.2[probe]? =
        if dest = probe then (moveOutcome now member src[source]? dst[dest]?).2.2
        else dst[probe]? := by
  have droppedSrc := lookup_dropExpired now source src
  have droppedDst := lookup_dropExpired now dest dst
  unfold setMoveAcross moveOutcome
  dsimp only
  generalize dropExpired now source src = src' at droppedSrc ⊢
  generalize dropExpired now dest dst = dst' at droppedDst ⊢
  have taken := takeOut_actsAs source member src'
  have put := putIn_actsAs dest member dst'
  rw [ActsAs, droppedSrc, if_pos rfl] at taken
  rw [ActsAs, droppedDst, if_pos rfl] at put
  generalize takeOut source member src' = outcome at taken ⊢
  generalize takeMember member (src[source]?.filter (Entry.live now)) = left at taken ⊢
  obtain ⟨result, src''⟩ := outcome
  obtain ⟨sameResult, source'⟩ := left
  obtain ⟨rfl, taken⟩ := taken
  have leftSource : ∀ probe, src''[probe]? = if source = probe then source' else src[probe]? := by
    intro probe
    rw [taken, droppedSrc]
    split
    · rfl
    · rfl
  rcases result with _ | moved
  · exact ⟨rfl, leftSource, droppedDst⟩
  cases moved with
  | false => exact ⟨rfl, leftSource, droppedDst⟩
  | true =>
      refine ⟨put.1, leftSource, fun probe => ?_⟩
      dsimp only
      rw [put.2, droppedDst]
      split
      · rfl
      · rfl

/-- Inside one shard, a move does the same. -/
theorem setMove_outcome
    (now : UInt64) {source dest : Bytes} (distinct : source ≠ dest) (member : Bytes)
    (data : ByteMap Entry) :
    (setMove now source dest member data).1 =
        (moveOutcome now member data[source]? data[dest]?).1 ∧
      ∀ probe, (setMove now source dest member data).2[probe]? =
        if source = probe then (moveOutcome now member data[source]? data[dest]?).2.1
        else if dest = probe then (moveOutcome now member data[source]? data[dest]?).2.2
        else data[probe]? := by
  have dropped : ∀ probe, (dropExpired now dest (dropExpired now source data))[probe]? =
      if source = probe then data[source]?.filter (Entry.live now)
      else if dest = probe then data[dest]?.filter (Entry.live now) else data[probe]? := by
    intro probe
    rw [lookup_dropExpired, lookup_dropExpired, lookup_dropExpired, if_neg distinct]
    by_cases atDest : dest = probe
    · rw [if_pos atDest, if_neg (fun atSource => distinct (atSource.trans atDest.symm)),
        if_pos atDest]
    · rw [if_neg atDest, if_neg atDest]
  unfold setMove moveOutcome
  dsimp only
  generalize dropExpired now dest (dropExpired now source data) = data' at dropped ⊢
  have taken := takeOut_actsAs source member data'
  rw [ActsAs, dropped, if_pos rfl] at taken
  generalize takeOut source member data' = outcome at taken ⊢
  generalize takeMember member (data[source]?.filter (Entry.live now)) = left at taken ⊢
  obtain ⟨result, data''⟩ := outcome
  obtain ⟨sameResult, source'⟩ := left
  obtain ⟨rfl, taken⟩ := taken
  have leftAll : ∀ probe, data''[probe]? =
      if source = probe then source'
      else if dest = probe then data[dest]?.filter (Entry.live now) else data[probe]? := by
    intro probe
    rw [taken, dropped]
    split
    · rfl
    · rfl
  rcases result with _ | moved
  · exact ⟨rfl, leftAll⟩
  cases moved with
  | false => exact ⟨rfl, leftAll⟩
  | true =>
      have put := putIn_actsAs dest member data''
      rw [ActsAs, leftAll, if_neg distinct, if_pos rfl] at put
      refine ⟨put.1, fun probe => ?_⟩
      rw [put.2, leftAll]
      by_cases atDest : dest = probe
      · rw [if_pos atDest, if_neg (fun atSource => distinct (atSource.trans atDest.symm)),
          if_pos atDest]
      · rw [if_neg atDest, if_neg atDest, if_neg atDest]

/-- The members a key has at a moment: none when it is absent or expired; a
value of another type has no members to speak of. -/
def membersAt (now : UInt64) (entry : Option Entry) : Option ByteSet :=
  match entry.filter (Entry.live now) with
  | none => some ∅
  | some stored => stored.value.asSet

end Shard

/-! ## Over shards -/

/-- The shards of a database, for some assignment of keys to shards. -/
structure Sharded (ι : Type) where
  assign : Bytes → ι
  shards : ι → ByteMap Entry

namespace Sharded

variable {ι κ : Type} [LinearOrder ι] [LinearOrder κ]

/-- The entry a key holds in its own shard. -/
def lookup (store : Sharded ι) (key : Bytes) : Option Entry :=
  (store.shards (store.assign key))[key]?

/-- `Db::set_move`: within the shard of both keys, or over their two shards,
locked in ascending order. -/
def setMove (store : Sharded ι) (now : UInt64) (source dest member : Bytes) :
    Fallible Bool × Sharded ι :=
  let si := store.assign source
  let di := store.assign dest
  if si = di then
    let (result, data) := Shard.setMove now source dest member (store.shards si)
    (result, { store with shards := Function.update store.shards si data })
  else
    let (first, second) := if si < di then (si, di) else (di, si)
    let g1 := store.shards first
    let g2 := store.shards second
    let (src, dst) := if si < di then (g1, g2) else (g2, g1)
    let (result, src, dst) := Shard.setMoveAcross now source dest member src dst
    let (g1, g2) := if si < di then (src, dst) else (dst, src)
    (result, { store with
      shards := Function.update (Function.update store.shards first g1) second g2 })

/-- The two shards a move across them leaves, whichever is locked first. -/
theorem setMove_across
    (store : Sharded ι) (now : UInt64) {source dest : Bytes} (member : Bytes)
    (apart : store.assign source ≠ store.assign dest) :
    let moved := Shard.setMoveAcross now source dest member
      (store.shards (store.assign source)) (store.shards (store.assign dest))
    (store.setMove now source dest member).1 = moved.1 ∧
      (store.setMove now source dest member).2.assign = store.assign ∧
        ∀ index, (store.setMove now source dest member).2.shards index =
          if index = store.assign source then moved.2.1
          else if index = store.assign dest then moved.2.2 else store.shards index := by
  unfold setMove
  dsimp only
  rw [if_neg apart]
  by_cases ascending : store.assign source < store.assign dest
  · simp only [if_pos ascending]
    refine ⟨trivial, trivial, fun index => ?_⟩
    rw [Function.update_apply, Function.update_apply]
    by_cases atSource : index = store.assign source
    · rw [if_pos atSource, if_pos atSource, if_neg (atSource ▸ apart)]
    · rw [if_neg atSource, if_neg atSource]
  · simp only [if_neg ascending]
    refine ⟨trivial, trivial, fun index => ?_⟩
    rw [Function.update_apply, Function.update_apply]

/-- A move does to a store what it does to the entries of its two keys, in
whichever shards they lie. -/
theorem setMove_outcome
    (store : Sharded ι) (now : UInt64) {source dest : Bytes} (distinct : source ≠ dest)
    (member : Bytes) :
    (store.setMove now source dest member).1 =
        (Shard.moveOutcome now member (store.lookup source) (store.lookup dest)).1 ∧
      ∀ key, (store.setMove now source dest member).2.lookup key =
        if source = key then
          (Shard.moveOutcome now member (store.lookup source) (store.lookup dest)).2.1
        else if dest = key then
          (Shard.moveOutcome now member (store.lookup source) (store.lookup dest)).2.2
        else store.lookup key := by
  by_cases together : store.assign source = store.assign dest
  · have moved := Shard.setMove_outcome now distinct member
      (store.shards (store.assign source))
    have destHere : store.lookup dest = (store.shards (store.assign source))[dest]? := by
      rw [lookup, together]
    unfold setMove
    dsimp only
    rw [if_pos together, destHere]
    refine ⟨moved.1, fun key => ?_⟩
    rw [lookup]
    dsimp only
    rw [Function.update_apply]
    by_cases here : store.assign key = store.assign source
    · have own : store.lookup key = (store.shards (store.assign source))[key]? := by
        rw [lookup, here]
      rw [if_pos here, moved.2, own]
      rfl
    · have notSource : source ≠ key := fun same => here (congrArg store.assign same).symm
      have notDest : dest ≠ key := fun same =>
        here ((congrArg store.assign same).symm.trans together.symm)
      rw [if_neg here, if_neg notSource, if_neg notDest]
      rfl
  · obtain ⟨sameResult, sameAssign, left⟩ := store.setMove_across now member together
    have moved := Shard.setMoveAcross_outcome now source dest member
      (store.shards (store.assign source)) (store.shards (store.assign dest))
    refine ⟨sameResult.trans moved.1, fun key => ?_⟩
    rw [lookup, sameAssign, left]
    by_cases atSource : store.assign key = store.assign source
    · have notDest : dest ≠ key := fun same =>
        together (atSource.symm.trans (congrArg store.assign same.symm))
      have own : store.lookup key = (store.shards (store.assign source))[key]? := by
        rw [lookup, atSource]
      rw [if_pos atSource, moved.2.1, if_neg notDest, own]
      rfl
    · have notSource : source ≠ key := fun same => atSource (congrArg store.assign same).symm
      rw [if_neg atSource, if_neg notSource]
      by_cases atDest : store.assign key = store.assign dest
      · have own : store.lookup key = (store.shards (store.assign dest))[key]? := by
          rw [lookup, atDest]
        rw [if_pos atDest, moved.2.2, own]
        rfl
      · have notDest : dest ≠ key := fun same => atDest (congrArg store.assign same).symm
        rw [if_neg atDest, if_neg notDest]
        rfl

/-- The shards of a database. -/
def ofDb (db : Db) : Sharded (Fin numShards) where
  assign := shardIndex
  shards := db.shards

@[simp] theorem ofDb_lookup (db : Db) (key : Bytes) : (ofDb db).lookup key = db.lookup key := rfl

/-- The move of the database is the one over its shards. -/
theorem ofDb_setMove
    (db : Db) (now : UInt64) {source dest : Bytes} (distinct : source ≠ dest)
    (member : Bytes) :
    ((ofDb db).setMove now source dest member).1 = (db.setMove now source dest member).1 ∧
      ∀ key, ((ofDb db).setMove now source dest member).2.lookup key =
        (db.setMove now source dest member).2.lookup key := by
  have dropped : ∀ key, ((db.dropExpired now source).dropExpired now dest).lookup key =
      if source = key then (db.lookup source).filter (Entry.live now)
      else if dest = key then (db.lookup dest).filter (Entry.live now) else db.lookup key := by
    intro key
    rw [Db.lookup_dropExpired, Db.lookup_dropExpired, Db.lookup_dropExpired, if_neg distinct]
    by_cases atDest : dest = key
    · rw [if_pos atDest, if_neg (fun atSource => distinct (atSource.trans atDest.symm)),
        if_pos atDest]
    · rw [if_neg atDest, if_neg atDest]
  have sourceLeft := dropped source
  rw [if_pos rfl] at sourceLeft
  obtain ⟨result, left⟩ := (ofDb db).setMove_outcome now distinct member
  rw [result]
  simp only [left]
  unfold Db.setMove Shard.moveOutcome
  dsimp only [ofDb_lookup]
  generalize (db.dropExpired now source).dropExpired now dest = db' at dropped sourceLeft ⊢
  have takenResult := Db.access_result db' source (Shard.takeMember member)
  have taken : ∀ key, (db'.access source (Shard.takeMember member)).2.lookup key =
      if source = key then
        (Shard.takeMember member ((db.lookup source).filter (Entry.live now))).2
      else if dest = key then (db.lookup dest).filter (Entry.live now) else db.lookup key := by
    intro key
    rw [Db.lookup_access, dropped, if_pos rfl, dropped]
    split
    · rfl
    · rfl
  rw [sourceLeft] at takenResult
  generalize db'.access source (Shard.takeMember member) = outcome at takenResult taken ⊢
  generalize Shard.takeMember member ((db.lookup source).filter (Entry.live now)) = entries
    at takenResult taken ⊢
  obtain ⟨result, db''⟩ := outcome
  obtain ⟨sameResult, source'⟩ := entries
  obtain rfl : result = sameResult := takenResult
  rcases result with _ | moved
  · exact ⟨rfl, fun key => (taken key).symm⟩
  cases moved with
  | false => exact ⟨rfl, fun key => (taken key).symm⟩
  | true =>
      have destLeft := taken dest
      rw [if_neg distinct, if_pos rfl] at destLeft
      dsimp only at destLeft taken ⊢
      rw [Db.access_result, destLeft]
      refine ⟨rfl, fun key => ?_⟩
      rw [Db.lookup_access, destLeft, taken]
      by_cases atDest : dest = key
      · rw [if_pos atDest, if_pos atDest, if_neg (fun atSource =>
          distinct (atSource.trans atDest.symm))]
      · rw [if_neg atDest, if_neg atDest, if_neg atDest]

/-- What a move does to two sets: a member of the source leaves it, the source
vanishes when it becomes empty, the destination gains the member and keeps its
expiry, and nothing else changes.  Where the source lacks the member, nothing
visible changes. -/
def MovesMember (now : UInt64) (source dest member : Bytes) (members others : ByteSet)
    (before after : Bytes → Option Entry) (result : Fallible Bool) : Prop :=
  (∀ key, source ≠ key → dest ≠ key → after key = before key) ∧
    if members.contains member then
      result = .ok true ∧
        after source =
            (if (members.erase member).isEmpty then none
              else (before source).map fun stored =>
                stored.withValue (.set (members.erase member))) ∧
          after dest =
            some ⟨.set (others.insert member),
              ((before dest).filter (Entry.live now)).bind Entry.expiresAt⟩
    else
      result = .ok false ∧
        ∀ key, (after key).filter (Entry.live now) = (before key).filter (Entry.live now)

theorem filter_live_twice (now : UInt64) (entry : Option Entry) :
    (entry.filter (Entry.live now)).filter (Entry.live now) =
      entry.filter (Entry.live now) := by
  rw [Option.filter_filter]
  simp only [Bool.and_self]

/-- Taking a member out of an entry with a set. -/
theorem takeMember_of_set
    {now : UInt64} {source : Option Entry} {members : ByteSet}
    (sourceSet : Shard.membersAt now source = some members) (member : Bytes) :
    Shard.takeMember member (source.filter (Entry.live now)) =
      if members.contains member then
        (.ok true,
          if (members.erase member).isEmpty then none
          else source.map fun stored => stored.withValue (.set (members.erase member)))
      else (.ok false, source.filter (Entry.live now)) := by
  unfold Shard.membersAt at sourceSet
  unfold Shard.takeMember
  cases found : source.filter (Entry.live now) with
  | none =>
      rw [found] at sourceSet
      cases sourceSet
      rw [Std.ExtTreeSet.contains_empty, if_neg Bool.false_ne_true]
  | some stored =>
      rw [found] at sourceSet
      dsimp only at sourceSet ⊢
      rw [sourceSet, (Option.filter_eq_some_iff.mp found).1, Option.map_some]

/-- Putting a member into an entry with a set. -/
theorem addMember_of_set
    {now : UInt64} {dest : Option Entry} {others : ByteSet}
    (destSet : Shard.membersAt now dest = some others) (member : Bytes) :
    Shard.addMember member (dest.filter (Entry.live now)) =
      (.ok true,
        some ⟨.set (others.insert member),
          (dest.filter (Entry.live now)).bind Entry.expiresAt⟩) := by
  unfold Shard.membersAt at destSet
  unfold Shard.addMember
  cases found : dest.filter (Entry.live now) with
  | none =>
      rw [found] at destSet
      cases destSet
      rfl
  | some stored =>
      rw [found] at destSet
      dsimp only at destSet ⊢
      rw [destSet]
      rfl

/-- The outcome of a move on two entries with sets. -/
theorem moveOutcome_of_sets
    {now : UInt64} {source dest : Option Entry} {members others : ByteSet}
    (sourceSet : Shard.membersAt now source = some members)
    (destSet : Shard.membersAt now dest = some others) (member : Bytes) :
    Shard.moveOutcome now member source dest =
      if members.contains member then
        (.ok true,
          (if (members.erase member).isEmpty then none
            else source.map fun stored => stored.withValue (.set (members.erase member))),
          some ⟨.set (others.insert member),
            (dest.filter (Entry.live now)).bind Entry.expiresAt⟩)
      else (.ok false, source.filter (Entry.live now), dest.filter (Entry.live now)) := by
  unfold Shard.moveOutcome
  rw [takeMember_of_set sourceSet, addMember_of_set destSet]
  cases members.contains member with
  | true => rfl
  | false => rfl

/-- `SMOVE` moves one member from set to set, and does so whatever shards the
keys lie in. -/
theorem set_move_exact
    (store : Sharded ι) (now : UInt64) {source dest : Bytes} (distinct : source ≠ dest)
    (member : Bytes) :
    (∀ members others : ByteSet,
        Shard.membersAt now (store.lookup source) = some members →
          Shard.membersAt now (store.lookup dest) = some others →
            MovesMember now source dest member members others store.lookup
              (store.setMove now source dest member).2.lookup
              (store.setMove now source dest member).1) ∧
      ∀ other : Sharded κ, (∀ key, other.lookup key = store.lookup key) →
        (other.setMove now source dest member).1 =
            (store.setMove now source dest member).1 ∧
          ∀ key, (other.setMove now source dest member).2.lookup key =
            (store.setMove now source dest member).2.lookup key := by
  obtain ⟨result, left⟩ := store.setMove_outcome now distinct member
  constructor
  · intro members others sourceSet destSet
    have outcome := moveOutcome_of_sets sourceSet destSet member
    rw [outcome] at result left
    refine ⟨fun key notSource notDest => ?_, ?_⟩
    · rw [left, if_neg notSource, if_neg notDest]
    · cases contained : members.contains member with
      | true =>
          rw [contained, if_pos rfl] at result left
          rw [if_pos rfl]
          refine ⟨result, ?_, ?_⟩
          · rw [left, if_pos rfl]
          · rw [left, if_neg distinct, if_pos rfl]
      | false =>
          rw [contained, if_neg Bool.false_ne_true] at result left
          rw [if_neg Bool.false_ne_true]
          refine ⟨result, fun key => ?_⟩
          rw [left]
          split
          case isTrue same =>
            rw [← same]
            exact filter_live_twice now _
          case isFalse notSource =>
            split
            case isTrue same =>
              rw [← same]
              exact filter_live_twice now _
            case isFalse => rfl
  · intro other agree
    obtain ⟨otherResult, otherLeft⟩ := other.setMove_outcome now distinct member
    rw [agree, agree] at otherResult
    refine ⟨otherResult.trans result.symm, fun key => ?_⟩
    rw [otherLeft, left, agree, agree, agree]

/-- Two shards, with one set under the key `1` and nothing else. -/
def oneSet : Sharded Bool where
  assign := fun key => key == [1]
  shards := fun _ => (∅ : ByteMap Entry).insert [1] ⟨.set ((∅ : ByteSet).insert [97]), none⟩

/-- The member of the only set moves to a new one in the other shard. -/
theorem set_move_exact_oneSet :
    (oneSet.setMove 0 [1] [2] [97]).1 = .ok true ∧
      ∀ other : Sharded (Fin 1), (∀ key, other.lookup key = oneSet.lookup key) →
        (other.setMove 0 [1] [2] [97]).1 = .ok true := by
  have source : oneSet.lookup [1] = some ⟨.set ((∅ : ByteSet).insert [97]), none⟩ :=
    ByteMap.lookup_insert ∅ [1] [1] _
  have dest : oneSet.lookup [2] = none := by
    rw [lookup, oneSet, ByteMap.lookup_insert, if_neg (by decide)]
    rfl
  obtain ⟨moves, agree⟩ :=
    @set_move_exact Bool (Fin 1) _ _ oneSet 0 [1] [2] (by decide) [97]
  have moved := (moves ((∅ : ByteSet).insert [97]) ∅ (by rw [source]; rfl) (by rw [dest]; rfl)).2
  rw [Std.ExtTreeSet.contains_insert_self, if_pos rfl] at moved
  exact ⟨moved.1, fun other same => (agree other same).1.trans moved.1⟩

end Sharded
end Cache
end MuonJs
