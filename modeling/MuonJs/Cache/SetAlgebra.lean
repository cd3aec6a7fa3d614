import MuonJs.Cache.Call
import MuonJs.Cache.Moving

/-!
# Unions and intersections

`set_union` and `set_inter` read one key after the other.  Their replies are
compared with the union and the intersection of the sets the keys hold when the
first one is read.  The intersection stops at the first set that lacks a member,
so that it may not come to a later key of the wrong type.
-/

namespace MuonJs
namespace Cache
namespace Db

/-- Run a method alone, at one clock reading. -/
abbrev runAt (now : UInt64) (method : Method α) (db : Db) : α × Db :=
  method.run (Call.exec now) db

/-- The sets the keys hold, `none` for a key with a value of another type. -/
def setsAt (now : UInt64) (db : Db) (key : Bytes) : Option ByteSet :=
  Shard.membersAt now (db.lookup key)

/-! ## Reading one key -/

theorem membersAt_filter (now : UInt64) (entry : Option Entry) :
    Shard.membersAt now (entry.filter (Entry.live now)) = Shard.membersAt now entry := by
  rw [Shard.membersAt, Shard.membersAt, Sharded.filter_live_twice]

/-- A read of one key as a set. -/
theorem readAs_set
    (now : UInt64) (found : ByteSet → α) (missing : α) (same : found ∅ = missing)
    (entry : Option Entry) :
    Shard.readAs Value.asSet found missing now entry =
      ((match Shard.membersAt now entry with
        | some members => .ok (found members)
        | none => .error ()), entry.filter (Entry.live now)) := by
  cases visible : entry.filter (Entry.live now) with
  | none =>
      rw [Shard.readAs_of_absent visible, Shard.membersAt, visible]
      dsimp only
      rw [same]
  | some stored =>
      obtain ⟨isEntry, alive⟩ := Option.filter_eq_some_iff.mp visible
      rw [Shard.membersAt, visible, isEntry]
      dsimp only
      cases kind : stored.value.asSet with
      | none => rw [Shard.readAs_of_wrongType alive kind]
      | some members => rw [Shard.readAs_of_live alive kind]

/-- A read that drops an expired entry keeps the sets. -/
theorem setsAt_access
    {now : UInt64} {db : Db} {key : Bytes} {method : EntryFn α}
    (keeps : (method (db.lookup key)).2 = (db.lookup key).filter (Entry.live now)) :
    setsAt now (db.access key method).2 = setsAt now db := by
  funext probe
  rw [setsAt, setsAt, lookup_access]
  split
  case isTrue same => rw [keeps, membersAt_filter, same]
  case isFalse => rfl

/-- `Shard::set_members` at a key. -/
theorem run_setMembers (now : UInt64) (key : Bytes) (db : Db) :
    (runAt now (entry key .setMembers) db).1 =
        (match setsAt now db key with
          | some members => .ok members.toList
          | none => .error ()) ∧
      setsAt now (runAt now (entry key .setMembers) db).2 = setsAt now db := by
  have reads := readAs_set now Std.ExtTreeSet.toList [] rfl (db.lookup key)
  exact ⟨congrArg Prod.fst reads, setsAt_access (congrArg Prod.snd reads)⟩

/-- `Shard::set_is_member` at a key. -/
theorem run_setIsMember (now : UInt64) (key member : Bytes) (db : Db) :
    (runAt now (entry key (.setIsMember member)) db).1 =
        (match setsAt now db key with
          | some members => .ok (members.contains member)
          | none => .error ()) ∧
      setsAt now (runAt now (entry key (.setIsMember member)) db).2 = setsAt now db := by
  have reads := readAs_set now (fun members => members.contains member) false rfl (db.lookup key)
  exact ⟨congrArg Prod.fst reads, setsAt_access (congrArg Prod.snd reads)⟩

/-! ## The loops over the sets -/

section

variable (sets : Bytes → Option ByteSet)

/-- The union loop on the sets. -/
def unionOf (result : ByteSet) : List Bytes → Fallible ByteSet
  | [] => .ok result
  | key :: keys =>
      match sets key with
      | some members => unionOf (result.insertMany members.toList) keys
      | none => .error ()

/-- The membership test of the intersection on the sets. -/
def inAllOf (member : Bytes) : List Bytes → Fallible Bool
  | [] => .ok true
  | key :: keys =>
      match sets key with
      | some members => if members.contains member then inAllOf member keys else .ok false
      | none => .error ()

/-- The intersection loop on the sets. -/
def interLoopOf (others : List Bytes) : List Bytes → Fallible (List Bytes)
  | [] => .ok []
  | member :: members =>
      match inAllOf sets member others with
      | .error () => .error ()
      | .ok isCommon =>
          match interLoopOf others members with
          | .error () => .error ()
          | .ok rest => .ok (if isCommon then member :: rest else rest)

end

theorem run_setUnionLoop (now : UInt64) (keys : List Bytes) (result : ByteSet) (db : Db) :
    (runAt now (setUnionLoop result keys) db).1 = unionOf (setsAt now db) result keys := by
  induction keys generalizing result db with
  | nil => rfl
  | cons key keys ih =>
      obtain ⟨reply, keeps⟩ := run_setMembers now key db
      rw [setUnionLoop, runAt, Program.run_bind, unionOf, reply]
      cases setsAt now db key with
      | none => rfl
      | some members =>
          dsimp only
          rw [ih, keeps]

theorem run_inAll (now : UInt64) (member : Bytes) (keys : List Bytes) (db : Db) :
    (runAt now (inAll member keys) db).1 = inAllOf (setsAt now db) member keys ∧
      setsAt now (runAt now (inAll member keys) db).2 = setsAt now db := by
  induction keys generalizing db with
  | nil => exact ⟨rfl, rfl⟩
  | cons key keys ih =>
      obtain ⟨reply, keeps⟩ := run_setIsMember now key member db
      rw [inAll, runAt, Program.run_bind, inAllOf, reply]
      cases setsAt now db key with
      | none => exact ⟨rfl, keeps⟩
      | some members =>
          dsimp only
          cases members.contains member with
          | false => exact ⟨rfl, keeps⟩
          | true =>
              obtain ⟨rest, restKeeps⟩ := ih (runAt now (entry key (.setIsMember member)) db).2
              rw [keeps] at rest restKeeps
              exact ⟨rest, restKeeps⟩

theorem run_setInterLoop
    (now : UInt64) (others members : List Bytes) (db : Db) :
    (runAt now (setInterLoop others members) db).1 =
      interLoopOf (setsAt now db) others members := by
  induction members generalizing db with
  | nil => rfl
  | cons member members ih =>
      obtain ⟨reply, keeps⟩ := run_inAll now member others db
      have rest := ih (runAt now (inAll member others) db).2
      rw [keeps] at rest
      rw [setInterLoop, runAt, Program.run_bind, interLoopOf, reply]
      cases inAllOf (setsAt now db) member others with
      | error failure => rfl
      | ok isCommon =>
          dsimp only
          rw [Program.run_bind, rest]
          cases interLoopOf (setsAt now db) others members with
          | error failure => rfl
          | ok found => rfl

theorem run_setUnion (now : UInt64) (keys : List Bytes) (db : Db) :
    (runAt now (setUnion keys) db).1 =
      (unionOf (setsAt now db) ∅ keys).map Std.ExtTreeSet.toList := by
  rw [setUnion, runAt, Program.run_bind, run_setUnionLoop]
  rfl

theorem run_setInter (now : UInt64) (first : Bytes) (others : List Bytes) (db : Db) :
    (runAt now (setInter (first :: others)) db).1 =
      match setsAt now db first with
      | some members => interLoopOf (setsAt now db) others members.toList
      | none => .error () := by
  obtain ⟨reply, keeps⟩ := run_setMembers now first db
  rw [setInter, runAt, Program.run_bind, reply]
  cases setsAt now db first with
  | none => rfl
  | some members =>
      dsimp only
      rw [run_setInterLoop, keeps]

/-! ## What the loops compute -/

section

variable {sets : Bytes → Option ByteSet}

/-- A key holds a set with the member. -/
def HoldsMember (sets : Bytes → Option ByteSet) (key member : Bytes) : Prop :=
  ∃ members, sets key = some members ∧ member ∈ members

/-- A listed key holds a value of another type. -/
def SomeWrong (sets : Bytes → Option ByteSet) (keys : List Bytes) : Prop :=
  ∃ key ∈ keys, sets key = none

theorem someWrong_cons (key : Bytes) (keys : List Bytes) :
    SomeWrong sets (key :: keys) ↔ sets key = none ∨ SomeWrong sets keys := by
  rw [SomeWrong, SomeWrong, List.exists_mem_cons_iff]

theorem hasMember_iff {key : Bytes} {members : ByteSet} (isSet : sets key = some members)
    (member : Bytes) : HoldsMember sets key member ↔ member ∈ members := by
  constructor
  · rintro ⟨others, isOther, contained⟩
    rw [isSet] at isOther
    cases isOther
    exact contained
  · exact fun contained => ⟨members, isSet, contained⟩

/-- The union loop fails exactly where a key is of the wrong type. -/
theorem unionOf_spec (result : ByteSet) (keys : List Bytes) :
    (SomeWrong sets keys → unionOf sets result keys = .error ()) ∧
      (¬SomeWrong sets keys → ∃ union, unionOf sets result keys = .ok union ∧
        ∀ member, member ∈ union ↔
          member ∈ result ∨ ∃ key ∈ keys, HoldsMember sets key member) := by
  induction keys generalizing result with
  | nil =>
      constructor
      · rintro ⟨key, listed, -⟩
        cases listed
      · intro _
        refine ⟨result, rfl, fun member => ?_⟩
        simp only [List.not_mem_nil, false_and, exists_false, or_false]
  | cons key keys ih =>
      rw [someWrong_cons, unionOf]
      cases isSet : sets key with
      | none => exact ⟨fun _ => rfl, fun fine => absurd (Or.inl rfl) fine⟩
      | some members =>
          dsimp only
          obtain ⟨fails, succeeds⟩ := ih (result.insertMany members.toList)
          constructor
          · rintro (wrong | wrong)
            · cases wrong
            · exact fails wrong
          · intro fine
            obtain ⟨union, isUnion, membership⟩ := succeeds fun wrong => fine (Or.inr wrong)
            refine ⟨union, isUnion, fun member => ?_⟩
            rw [membership, Std.ExtTreeSet.mem_insertMany_list, List.contains_iff_mem,
              Std.ExtTreeSet.mem_toList, List.exists_mem_cons_iff, hasMember_iff isSet,
              or_assoc]

/-- A member passes the test exactly when every set has it. -/
theorem inAllOf_eq_true_iff (member : Bytes) (keys : List Bytes) :
    inAllOf sets member keys = .ok true ↔ ∀ key ∈ keys, HoldsMember sets key member := by
  induction keys with
  | nil => exact ⟨fun _ _ listed => absurd listed List.not_mem_nil, fun _ => rfl⟩
  | cons key keys ih =>
      rw [inAllOf, List.forall_mem_cons]
      cases isSet : sets key with
      | none =>
          constructor
          · intro passed
            cases passed
          · rintro ⟨⟨members, isSome, -⟩, -⟩
            rw [isSet] at isSome
            cases isSome
      | some members =>
          dsimp only
          rw [hasMember_iff isSet]
          cases contained : members.contains member with
          | true =>
              have isMember := Std.ExtTreeSet.contains_iff_mem.mp contained
              rw [if_pos rfl, ih]
              exact ⟨fun others => ⟨isMember, others⟩, fun both => both.2⟩
          | false =>
              rw [if_neg Bool.false_ne_true]
              constructor
              · intro passed
                cases passed
              · rintro ⟨isMember, -⟩
                rw [Std.ExtTreeSet.contains_iff_mem.mpr isMember] at contained
                cases contained

/-- The test fails exactly where it comes to a key of the wrong type: the sets
before the first such key have the member. -/
theorem inAllOf_eq_error_iff (member : Bytes) (keys : List Bytes) :
    inAllOf sets member keys = .error () ↔
      ∃ before wrong after, keys = before ++ wrong :: after ∧ sets wrong = none ∧
        ∀ key ∈ before, HoldsMember sets key member := by
  induction keys with
  | nil =>
      constructor
      · intro failed
        cases failed
      · rintro ⟨before, wrong, after, isList, -⟩
        exact absurd isList.symm (List.append_ne_nil_of_right_ne_nil _ (List.cons_ne_nil _ _))
  | cons key keys ih =>
      rw [inAllOf]
      cases isSet : sets key with
      | none =>
          exact ⟨fun _ => ⟨[], key, keys, rfl, isSet, fun _ listed => absurd listed List.not_mem_nil⟩,
            fun _ => rfl⟩
      | some members =>
          dsimp only
          have notFirst : ∀ before wrong after, key :: keys = before ++ wrong :: after →
              sets wrong = none → ∃ more, before = key :: more ∧
                keys = more ++ wrong :: after := by
            intro before wrong after isList isWrong
            cases before with
            | nil =>
                injection isList with sameKey
                rw [← sameKey, isSet] at isWrong
                cases isWrong
            | cons other more =>
                injection isList with sameKey sameKeys
                exact ⟨more, by rw [sameKey], sameKeys⟩
          cases contained : members.contains member with
          | true =>
              have isMember := Std.ExtTreeSet.contains_iff_mem.mp contained
              rw [if_pos rfl, ih]
              constructor
              · rintro ⟨before, wrong, after, isList, isWrong, common⟩
                refine ⟨key :: before, wrong, after, by rw [isList]; rfl, isWrong, ?_⟩
                exact List.forall_mem_cons.mpr ⟨(hasMember_iff isSet member).mpr isMember, common⟩
              · rintro ⟨before, wrong, after, isList, isWrong, common⟩
                obtain ⟨more, rfl, isRest⟩ := notFirst before wrong after isList isWrong
                exact ⟨more, wrong, after, isRest, isWrong, (List.forall_mem_cons.mp common).2⟩
          | false =>
              rw [if_neg Bool.false_ne_true]
              constructor
              · intro failed
                cases failed
              · rintro ⟨before, wrong, after, isList, isWrong, common⟩
                obtain ⟨more, rfl, -⟩ := notFirst before wrong after isList isWrong
                have isMember := (hasMember_iff isSet member).mp
                  (List.forall_mem_cons.mp common).1
                rw [Std.ExtTreeSet.contains_iff_mem.mpr isMember] at contained
                cases contained

/-- The intersection loop fails where the test of a member does, and keeps the
members that pass it. -/
theorem interLoopOf_spec (others members : List Bytes) :
    ((∃ member ∈ members, inAllOf sets member others = .error ()) →
        interLoopOf sets others members = .error ()) ∧
      ((∀ member ∈ members, inAllOf sets member others ≠ .error ()) →
        interLoopOf sets others members =
          .ok (members.filter fun member => inAllOf sets member others = .ok true)) := by
  induction members with
  | nil => exact ⟨fun ⟨_, listed, _⟩ => absurd listed List.not_mem_nil, fun _ => rfl⟩
  | cons member members ih =>
      rw [interLoopOf, List.exists_mem_cons_iff, List.forall_mem_cons]
      cases tested : inAllOf sets member others with
      | error failure => exact ⟨fun _ => rfl, fun fine => absurd rfl fine.1⟩
      | ok isCommon =>
          dsimp only
          constructor
          · rintro (failed | failed)
            · cases failed
            · rw [ih.1 failed]
          · rintro ⟨-, fine⟩
            rw [ih.2 fine, List.filter_cons, tested]
            cases isCommon with
            | true => rfl
            | false => rfl

end

/-! ## The replies -/

/-- A reply is an error exactly where a key is of the wrong type, and otherwise
lists the members without repetition. -/
def ReplyExact (reply : Fallible (List Bytes)) (wrong : Prop) (isMember : Bytes → Prop) :
    Prop :=
  (reply = .error () ↔ wrong) ∧
    ∀ members, reply = .ok members →
      members.Nodup ∧ ∀ member, member ∈ members ↔ isMember member

/-- Both replies are errors, or both list the same members. -/
def SameOutcome : Fallible (List Bytes) → Fallible (List Bytes) → Prop
  | .ok left, .ok right => left.Perm right
  | .error _, .error _ => True
  | _, _ => False

theorem nodup_toList (members : ByteSet) : members.toList.Nodup := by
  refine Std.ExtTreeSet.distinct_toList.imp fun apart same => apart ?_
  rw [same]
  exact Std.ReflCmp.compare_self

theorem SameOutcome.error_left
    {reply : Fallible (List Bytes)} (same : SameOutcome (.error ()) reply) :
    reply = .error () := by
  cases reply with
  | error failure => rfl
  | ok members => exact same.elim

theorem SameOutcome.of_exact
    {left right : Fallible (List Bytes)} {wrong : Prop} {isMember : Bytes → Prop}
    (leftExact : ReplyExact left wrong isMember)
    (rightExact : ReplyExact right wrong isMember) :
    SameOutcome left right := by
  cases left with
  | error failure =>
      cases right with
      | error failure => trivial
      | ok members =>
          have failed := rightExact.1.mpr (leftExact.1.mp rfl)
          cases failed
  | ok members =>
      cases right with
      | error failure =>
          have failed := leftExact.1.mpr (rightExact.1.mp rfl)
          cases failed
      | ok others =>
          obtain ⟨leftNodup, leftMembers⟩ := leftExact.2 members rfl
          obtain ⟨rightNodup, rightMembers⟩ := rightExact.2 others rfl
          refine (List.perm_ext_iff_of_nodup leftNodup rightNodup).mpr fun member => ?_
          rw [leftMembers, rightMembers]

theorem ReplyExact.congr
    {reply : Fallible (List Bytes)} {wrong wrong' : Prop} {isMember isMember' : Bytes → Prop}
    (exact_ : ReplyExact reply wrong isMember) (sameWrong : wrong ↔ wrong')
    (sameMembers : ∀ member, isMember member ↔ isMember' member) :
    ReplyExact reply wrong' isMember' := by
  refine ⟨exact_.1.trans sameWrong, fun members replied => ?_⟩
  obtain ⟨nodup, membership⟩ := exact_.2 members replied
  exact ⟨nodup, fun member => (membership member).trans (sameMembers member)⟩

theorem SomeWrong.perm
    {sets : Bytes → Option ByteSet} {keys keys' : List Bytes} (perm : keys.Perm keys') :
    SomeWrong sets keys ↔ SomeWrong sets keys' := by
  rw [SomeWrong, SomeWrong]
  simp only [perm.mem_iff]

/-- `SUNION` is always exact. -/
theorem union_exact (now : UInt64) (db : Db) (keys : List Bytes) :
    ReplyExact (runAt now (setUnion keys) db).1 (SomeWrong (setsAt now db) keys)
      fun member => ∃ key ∈ keys, HoldsMember (setsAt now db) key member := by
  obtain ⟨fails, succeeds⟩ := @unionOf_spec (setsAt now db) ∅ keys
  rw [run_setUnion]
  by_cases wrong : SomeWrong (setsAt now db) keys
  · rw [fails wrong]
    refine ⟨⟨fun _ => wrong, fun _ => rfl⟩, fun members replied => ?_⟩
    cases replied
  · obtain ⟨union, isUnion, membership⟩ := succeeds wrong
    rw [isUnion]
    refine ⟨⟨fun failed => ?_, fun isWrong => absurd isWrong wrong⟩, ?_⟩
    · cases failed
    · intro members replied
      cases replied
      refine ⟨nodup_toList union, fun member => ?_⟩
      rw [Std.ExtTreeSet.mem_toList, membership]
      exact or_iff_right Std.ExtTreeSet.not_mem_empty

/-- `SINTER` fails exactly where the keys before one of the wrong type hold sets
with a common member. -/
theorem inter_error_iff (now : UInt64) (first : Bytes) (others : List Bytes) (db : Db) :
    (runAt now (setInter (first :: others)) db).1 = .error () ↔
      ∃ before wrong after, first :: others = before ++ wrong :: after ∧
        setsAt now db wrong = none ∧
          ∃ member, ∀ key ∈ before, HoldsMember (setsAt now db) key member := by
  rw [run_setInter]
  cases isSet : setsAt now db first with
  | none =>
      exact ⟨fun _ => ⟨[], first, others, rfl, isSet, [], fun _ listed =>
        absurd listed List.not_mem_nil⟩, fun _ => rfl⟩
  | some members =>
      obtain ⟨fails, succeeds⟩ := @interLoopOf_spec (setsAt now db) others members.toList
      constructor
      · intro failed
        by_contra noKey
        have passes : ∀ member ∈ members.toList,
            inAllOf (setsAt now db) member others ≠ .error () := by
          intro member listed memberFails
          obtain ⟨before, wrong, after, isList, isWrong, common⟩ :=
            (inAllOf_eq_error_iff member others).mp memberFails
          have inFirst := (hasMember_iff isSet member).mpr
            (Std.ExtTreeSet.mem_toList.mp listed)
          exact noKey ⟨first :: before, wrong, after, by rw [isList]; rfl, isWrong, member,
            List.forall_mem_cons.mpr ⟨inFirst, common⟩⟩
        have succeeded := succeeds passes
        dsimp only at failed
        rw [failed] at succeeded
        cases succeeded
      · rintro ⟨before, wrong, after, isList, isWrong, member, common⟩
        cases before with
        | nil =>
            injection isList with sameKey
            rw [← sameKey, isSet] at isWrong
            cases isWrong
        | cons key before =>
            injection isList with sameKey isRest
            obtain ⟨inFirst, inBefore⟩ := List.forall_mem_cons.mp common
            rw [← sameKey, hasMember_iff isSet] at inFirst
            exact fails ⟨member, Std.ExtTreeSet.mem_toList.mpr inFirst,
              (inAllOf_eq_error_iff member others).mpr
                ⟨before, wrong, after, isRest, isWrong, inBefore⟩⟩

/-- Where no key is of the wrong type, `SINTER` is exact. -/
theorem inter_exact_of_fine
    {now : UInt64} {first : Bytes} {others : List Bytes} {db : Db}
    (fine : ¬SomeWrong (setsAt now db) (first :: others)) :
    ReplyExact (runAt now (setInter (first :: others)) db).1
      (SomeWrong (setsAt now db) (first :: others))
      fun member => ∀ key ∈ first :: others, HoldsMember (setsAt now db) key member := by
  have passes : ∀ member, inAllOf (setsAt now db) member others ≠ .error () := by
    intro member failed
    obtain ⟨before, wrong, after, isList, isWrong, -⟩ :=
      (inAllOf_eq_error_iff member others).mp failed
    refine fine ⟨wrong, List.mem_cons_of_mem first ?_, isWrong⟩
    rw [isList]
    exact List.mem_append_right before List.mem_cons_self
  rw [run_setInter]
  cases isSet : setsAt now db first with
  | none => exact absurd ⟨first, List.mem_cons_self, isSet⟩ fine
  | some members =>
      dsimp only
      rw [(interLoopOf_spec others members.toList).2 fun member _ => passes member]
      refine ⟨⟨fun failed => ?_, fun wrong => absurd wrong fine⟩, ?_⟩
      · cases failed
      · intro listed replied
        cases replied
        refine ⟨(nodup_toList members).filter _, fun member => ?_⟩
        dsimp only
        rw [List.mem_filter, Std.ExtTreeSet.mem_toList, decide_eq_true_iff,
          inAllOf_eq_true_iff, List.forall_mem_cons, hasMember_iff isSet]

/-- The first key of the wrong type. -/
theorem SomeWrong.first
    {sets : Bytes → Option ByteSet} {keys : List Bytes} (wrong : SomeWrong sets keys) :
    ∃ before bad after, keys = before ++ bad :: after ∧ sets bad = none ∧
      ∀ key ∈ before, sets key ≠ none := by
  induction keys with
  | nil =>
      obtain ⟨key, listed, -⟩ := wrong
      cases listed
  | cons key keys ih =>
      cases isSet : sets key with
      | none => exact ⟨[], key, keys, rfl, isSet, fun _ listed => absurd listed List.not_mem_nil⟩
      | some members =>
          have later : SomeWrong sets keys := by
            rw [someWrong_cons, isSet] at wrong
            exact wrong.resolve_left (Option.some_ne_none members)
          obtain ⟨before, bad, after, isList, isBad, good⟩ := ih later
          refine ⟨key :: before, bad, after, by rw [isList]; rfl, isBad, ?_⟩
          refine List.forall_mem_cons.mpr ⟨?_, good⟩
          rw [isSet]
          exact Option.some_ne_none members

/-- The sets among the listed keys have a common member; where there are none,
any byte string will do. -/
def HaveCommonMember (sets : Bytes → Option ByteSet) (keys : List Bytes) : Prop :=
  ∃ member, ∀ key ∈ keys, sets key ≠ none → HoldsMember sets key member

theorem HaveCommonMember.perm
    {sets : Bytes → Option ByteSet} {keys keys' : List Bytes} (perm : keys.Perm keys')
    (common : HaveCommonMember sets keys) : HaveCommonMember sets keys' := by
  obtain ⟨member, isCommon⟩ := common
  exact ⟨member, fun key listed => isCommon key (perm.mem_iff.mpr listed)⟩

/-- `SUNION` and `SINTER` reply with the union and the intersection of the sets,
in any order of the keys. -/
structure RepliesExact (now : UInt64) (db : Db) (keys : List Bytes) : Prop where
  union : ReplyExact (runAt now (setUnion keys) db).1 (SomeWrong (setsAt now db) keys)
    fun member => ∃ key ∈ keys, HoldsMember (setsAt now db) key member
  inter : ReplyExact (runAt now (setInter keys) db).1 (SomeWrong (setsAt now db) keys)
    fun member => ∀ key ∈ keys, HoldsMember (setsAt now db) key member
  union_perm : ∀ keys', keys.Perm keys' →
    SameOutcome (runAt now (setUnion keys) db).1 (runAt now (setUnion keys') db).1
  inter_perm : ∀ keys', keys.Perm keys' →
    SameOutcome (runAt now (setInter keys) db).1 (runAt now (setInter keys') db).1

/-- A common member brings `SINTER` to the key of the wrong type. -/
theorem inter_error_of_common
    {now : UInt64} {db : Db} {first : Bytes} {others : List Bytes}
    (wrong : SomeWrong (setsAt now db) (first :: others))
    (common : HaveCommonMember (setsAt now db) (first :: others)) :
    (runAt now (setInter (first :: others)) db).1 = .error () := by
  obtain ⟨before, bad, after, isList, isBad, good⟩ := wrong.first
  obtain ⟨member, isCommon⟩ := common
  rw [inter_error_iff]
  refine ⟨before, bad, after, isList, isBad, member, fun key listed => ?_⟩
  refine isCommon key ?_ (good key listed)
  rw [isList]
  exact List.mem_append_left _ listed

/-- When `SINTER` fails with the keys of the wrong type put last, the sets have a
common member. -/
theorem common_of_inter_error
    {now : UInt64} {db : Db} {good bad : List Bytes}
    (isGood : ∀ key ∈ good, setsAt now db key ≠ none)
    (failed : (runAt now (setInter (good ++ bad)) db).1 = .error ()) :
    ∃ member, ∀ key ∈ good, HoldsMember (setsAt now db) key member := by
  cases isList : good ++ bad with
  | nil =>
      rw [isList] at failed
      cases failed
  | cons first others =>
      rw [isList, inter_error_iff, ← isList] at failed
      obtain ⟨before, wrong, after, split, isWrong, member, common⟩ := failed
      refine ⟨member, fun key listed => common key ?_⟩
      rcases List.append_eq_append_iff.mp split with ⟨more, isBefore, -⟩ | ⟨more, isGoodList, rest⟩
      · rw [isBefore]
        exact List.mem_append_left _ listed
      · cases more with
        | nil =>
            rw [isGoodList, List.append_nil] at listed
            exact listed
        | cons other more =>
            injection rest with isOther
            have misplaced := isGood wrong (by
              rw [isGoodList, isOther]
              exact List.mem_append_right _ List.mem_cons_self)
            exact absurd isWrong misplaced

/-- The replies are exact unless a key is of the wrong type and the sets among
the keys have no common member: then `SINTER` misses the key in some order. -/
theorem replies_exact_iff (now : UInt64) (db : Db) (first : Bytes) (others : List Bytes) :
    RepliesExact now db (first :: others) ↔
      ¬SomeWrong (setsAt now db) (first :: others) ∨
        HaveCommonMember (setsAt now db) (first :: others) := by
  have unionPerm : ∀ keys', (first :: others).Perm keys' →
      SameOutcome (runAt now (setUnion (first :: others)) db).1
        (runAt now (setUnion keys') db).1 := by
    intro keys' perm
    refine SameOutcome.of_exact (union_exact now db _)
      ((union_exact now db keys').congr (SomeWrong.perm perm).symm fun member => ?_)
    simp only [perm.mem_iff]
  have unionReply := union_exact now db (first :: others)
  by_cases wrong : SomeWrong (setsAt now db) (first :: others)
  · constructor
    · intro exact_
      refine Or.inr ?_
      have perm := (List.filter_append_perm
        (fun key => (setsAt now db key).isSome) (first :: others)).symm
      have permuted := exact_.inter_perm _ perm
      rw [exact_.inter.1.mpr wrong] at permuted
      have failed := SameOutcome.error_left permuted
      obtain ⟨member, common⟩ := common_of_inter_error (fun key listed => by
        rw [List.mem_filter, Option.isSome_iff_ne_none] at listed
        exact listed.2) failed
      refine ⟨member, fun key listed isSet => common key ?_⟩
      rw [List.mem_filter, Option.isSome_iff_ne_none]
      exact ⟨listed, isSet⟩
    · rintro (fine | common)
      · exact absurd wrong fine
      · have failed := inter_error_of_common wrong common
        refine ⟨unionReply, ⟨⟨fun _ => wrong, fun _ => failed⟩, ?_⟩, unionPerm, ?_⟩
        · intro members replied
          rw [failed] at replied
          cases replied
        · intro keys' perm
          cases keys' with
          | nil => exact absurd perm.length_eq (Nat.succ_ne_zero _)
          | cons first' others' =>
              have failed' := inter_error_of_common ((SomeWrong.perm perm).mp wrong)
                (common.perm perm)
              rw [failed, failed']
              trivial
  · refine ⟨fun _ => Or.inl wrong, fun _ => ⟨unionReply, inter_exact_of_fine wrong, unionPerm, ?_⟩⟩
    intro keys' perm
    cases keys' with
    | nil => exact absurd perm.length_eq (Nat.succ_ne_zero _)
    | cons first' others' =>
        have fine : ¬SomeWrong (setsAt now db) (first' :: others') :=
          fun isWrong => wrong ((SomeWrong.perm perm).mpr isWrong)
        refine SameOutcome.of_exact (inter_exact_of_fine wrong)
          ((inter_exact_of_fine fine).congr (SomeWrong.perm perm).symm fun member => ?_)
        simp only [perm.mem_iff]

/-- `SINTER missing list` replies with an empty array. -/
theorem replies_not_always_exact :
    ¬∀ (now : UInt64) (db : Db) (first : Bytes) (others : List Bytes),
      RepliesExact now db (first :: others) := by
  intro exact_
  have inter := (exact_ 0 (empty.put [2] (some ⟨.list [[97]], none⟩)) [1] [[2]]).inter
  have missing : setsAt 0 (empty.put [2] (some ⟨.list [[97]], none⟩)) [1] = some ∅ := by
    rw [setsAt, lookup_put, if_neg (by decide), lookup_empty]
    rfl
  have wrong : setsAt 0 (empty.put [2] (some ⟨.list [[97]], none⟩)) [2] = none := by
    rw [setsAt, lookup_put, if_pos rfl]
    rfl
  have failed := inter.1.mpr ⟨[2], List.mem_cons_of_mem _ List.mem_cons_self, wrong⟩
  rw [run_setInter, missing] at failed
  have noMembers : (∅ : ByteSet).toList = [] := rfl
  dsimp only at failed
  rw [noMembers] at failed
  cases failed

end Db
end Cache
end MuonJs
