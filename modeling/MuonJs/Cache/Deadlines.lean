import MuonJs.Cache.Errors

/-!
# Deadlines and the time left

`ttl_ms` subtracts the clock from the deadline in `u64` and casts the difference
to `i64`, the type that also holds the sentinels -1 and -2.  `EXPIRE`,
`PEXPIRE`, `SET EX` and `SET PX` set the deadline to the clock plus the
duration, cut off at `u64::MAX`.

The replies of `TTL` and `PTTL` are exact for every entry but one whose deadline
lies 2⁶³ milliseconds or more ahead, where the cast turns the difference into a
negative number (`ttl_replies_exact_iff`).
-/

namespace MuonJs
namespace Cache

/-- The largest `u64`. -/
abbrev maxU64 : ℕ := 2 ^ 64 - 1

/-- The largest `i64`. -/
abbrev maxI64 : ℤ := 2 ^ 63 - 1

theorem toNat_saturatingAddU64 (left right : UInt64) :
    (saturatingAddU64 left right).toNat = min (left.toNat + right.toNat) maxU64 := by
  unfold saturatingAddU64
  rw [min_comm]
  refine UInt64.toNat_ofNat_of_lt' ?_
  show _ < 2 ^ 64
  omega

theorem toNat_saturatingMulU64 (left right : UInt64) :
    (saturatingMulU64 left right).toNat = min (left.toNat * right.toNat) maxU64 := by
  unfold saturatingMulU64
  rw [min_comm]
  refine UInt64.toNat_ofNat_of_lt' ?_
  show _ < 2 ^ 64
  omega

/-! ## The difference as a signed number -/

theorem toInt_toInt64 (value : UInt64) :
    value.toInt64.toInt =
      if value.toNat < 2 ^ 63 then (value.toNat : ℤ) else value.toNat - 2 ^ 64 := by
  change value.toBitVec.toInt = _
  rw [BitVec.toInt_eq_toNat_cond, UInt64.toNat_toBitVec]
  norm_num
  split <;> split <;> omega

/-- A difference below 2⁶³ keeps its value. -/
theorem toInt_remaining
    {deadline now : UInt64}
    (ahead : now < deadline)
    (near : deadline.toNat < now.toNat + 2 ^ 63) :
    (deadline - now).toInt64.toInt = deadline.toNat - now.toNat := by
  have before : now.toNat < deadline.toNat := UInt64.lt_iff_toNat_lt.mp ahead
  rw [toInt_toInt64, UInt64.toNat_sub_of_le _ _ (UInt64.le_of_lt ahead),
    if_pos (by omega)]
  omega

/-- A difference of 2⁶³ or more turns negative. -/
theorem toInt_remaining_neg
    {deadline now : UInt64}
    (far : now.toNat + 2 ^ 63 ≤ deadline.toNat) :
    (deadline - now).toInt64.toInt < 0 := by
  have small := deadline.toNat_lt
  have before : now ≤ deadline := UInt64.le_iff_toNat_le.mpr (by omega)
  rw [toInt_toInt64, UInt64.toNat_sub_of_le _ _ before, if_neg (by omega)]
  omega

/-- The whole seconds of a number of milliseconds. -/
theorem toInt_seconds {ms : Int64} (natural : 0 ≤ ms) :
    (ms / 1000).toInt = ms.toInt / 1000 := by
  have natural : 0 ≤ ms.toInt := Int64.le_iff_toInt_le.mp natural
  have inRange : ms ≠ Int64.minValue := by
    rintro rfl
    exact absurd natural (by decide)
  rw [Int64.toInt_div_of_ne_left _ _ inRange, Int.tdiv_eq_ediv_of_nonneg natural]
  rfl

/-! ## What the replies should be -/

/-- The reply tells what is left of an entry at a clock reading, in a unit of so
many milliseconds: the time to its deadline, or the largest `i64` where that
does not fit; -1 for a live entry without a deadline; -2 for none. -/
structure TellsTimeLeft
    (unit : ℤ) (now : UInt64) (entry : Option Entry) (reply : RespValue) : Prop where
  remaining : ∀ stored deadline, entry.filter (Entry.live now) = some stored →
    stored.expiresAt = some deadline →
      ∃ left : Int64, reply = .integer left ∧ 0 ≤ left ∧
        left.toInt = min ((deadline.toNat : ℤ) - now.toNat) maxI64 / unit
  persistent : reply = .integer (-1) ↔
    ∃ stored, entry.filter (Entry.live now) = some stored ∧ stored.expiresAt = none
  missing : reply = .integer (-2) ↔ entry.filter (Entry.live now) = none

/-- The entry is live, and its deadline 2⁶³ milliseconds or more ahead. -/
def FarDeadline (now : UInt64) (entry : Option Entry) : Prop :=
  ∃ stored deadline, entry = some stored ∧ stored.expiresAt = some deadline ∧
    now.toNat + 2 ^ 63 ≤ deadline.toNat

/-- `PTTL`'s reply to the result of `ttl_ms`. -/
def pttlReply (ttl : Option Int64) : RespValue := .integer (ttl.getD (-2))

/-- `TTL`'s reply to the result of `ttl_ms`. -/
def ttlReply (ttl : Option Int64) : RespValue :=
  match ttl with
  | some ms => .integer (if 0 ≤ ms then ms / 1000 else ms)
  | none => .integer (-2)

/-- What `ttl_ms` returns, by the live entry it finds. -/
inductive TtlCase (now : UInt64) (entry : Option Entry) : Option Int64 → Prop
  | missing : entry.filter (Entry.live now) = none → TtlCase now entry none
  | persistent (stored : Entry) : entry.filter (Entry.live now) = some stored →
      stored.expiresAt = none → TtlCase now entry (some (-1))
  | remaining (stored : Entry) (deadline : UInt64) :
      entry.filter (Entry.live now) = some stored →
      stored.expiresAt = some deadline → now < deadline →
      TtlCase now entry (some (deadline - now).toInt64)

theorem ttlMs_case (now : UInt64) (entry : Option Entry) :
    TtlCase now entry (Shard.ttlMs now entry).1 := by
  cases entry with
  | none => exact .missing rfl
  | some stored =>
      unfold Shard.ttlMs
      dsimp only
      cases expiry : stored.expiresAt with
      | none =>
          have alive : stored.live now = true := by
            rw [Entry.live, Entry.expired, expiry]
            rfl
          exact .persistent stored (Option.filter_some_pos alive) expiry
      | some deadline =>
          dsimp only
          by_cases past : deadline ≤ now
          · have dead : stored.live now = false := by
              rw [Entry.live, Entry.expired, expiry]
              simpa using past
            rw [if_pos past]
            exact .missing (Option.filter_some_neg dead)
          · have alive : stored.live now = true := by
              rw [Entry.live, Entry.expired, expiry]
              simpa using past
            rw [if_neg past]
            exact .remaining stored deadline (Option.filter_some_pos alive) expiry
              (UInt64.not_le.mp past)

theorem FarDeadline.remaining
    {now : UInt64} {entry : Option Entry} (far : FarDeadline now entry) :
    ∃ stored deadline, entry.filter (Entry.live now) = some stored ∧
      stored.expiresAt = some deadline ∧ now.toNat + 2 ^ 63 ≤ deadline.toNat := by
  obtain ⟨stored, deadline, rfl, expiry, distance⟩ := far
  refine ⟨stored, deadline, Option.filter_some_pos ?_, expiry, distance⟩
  have ahead : ¬deadline ≤ now := by
    rw [UInt64.le_iff_toNat_le]
    omega
  rw [Entry.live, Entry.expired, expiry]
  simpa using ahead

section

variable {respond : Option Int64 → RespValue} {unit : ℤ} {now : UInt64}
  {entry : Option Entry}

/-- The reply is exact where there is no live entry. -/
theorem TellsTimeLeft.of_missing
    (absent : entry.filter (Entry.live now) = none) :
    TellsTimeLeft unit now entry (.integer (-2)) where
  remaining := by
    intro stored deadline isLive
    rw [absent] at isLive
    cases isLive
  persistent := by
    refine iff_of_false (fun same => absurd (RespValue.integer.inj same) (by decide)) ?_
    rintro ⟨stored, isLive, -⟩
    rw [absent] at isLive
    cases isLive
  missing := iff_of_true rfl absent

/-- The reply is exact where the live entry has no deadline. -/
theorem TellsTimeLeft.of_persistent
    {stored : Entry} (isLive : entry.filter (Entry.live now) = some stored)
    (expiry : stored.expiresAt = none) :
    TellsTimeLeft unit now entry (.integer (-1)) where
  remaining := by
    intro other deadline isOther otherExpiry
    rw [isLive] at isOther
    cases isOther
    rw [expiry] at otherExpiry
    cases otherExpiry
  persistent := iff_of_true rfl ⟨stored, isLive, expiry⟩
  missing := by
    refine iff_of_false (fun same => absurd (RespValue.integer.inj same) (by decide)) ?_
    rw [isLive]
    exact Option.some_ne_none stored

/-- At a live entry with a deadline the reply is exact when it is the natural
number asked for. -/
theorem tellsTimeLeft_remaining_iff
    {stored : Entry} {deadline : UInt64}
    (isLive : entry.filter (Entry.live now) = some stored)
    (expiry : stored.expiresAt = some deadline) (reply : RespValue) :
    TellsTimeLeft unit now entry reply ↔
      ∃ left : Int64, reply = .integer left ∧ 0 ≤ left ∧
        left.toInt = min ((deadline.toNat : ℤ) - now.toNat) maxI64 / unit := by
  refine ⟨fun exact_ => exact_.remaining stored deadline isLive expiry, ?_⟩
  rintro ⟨left, rfl, natural, isLeft⟩
  constructor
  · intro other otherDeadline isOther otherExpiry
    rw [isLive] at isOther
    cases isOther
    rw [expiry] at otherExpiry
    cases otherExpiry
    exact ⟨left, rfl, natural, isLeft⟩
  · refine iff_of_false (fun same => ?_) ?_
    · rw [RespValue.integer.inj same] at natural
      exact absurd natural (by decide)
    · rintro ⟨other, isOther, none_⟩
      rw [isLive] at isOther
      cases isOther
      rw [expiry] at none_
      cases none_
  · refine iff_of_false (fun same => ?_) ?_
    · rw [RespValue.integer.inj same] at natural
      exact absurd natural (by decide)
    · rw [isLive]
      exact Option.some_ne_none stored

/-- A reply made from the result of `ttl_ms` that keeps the sentinels and gives
a natural number in its unit is exact, unless the deadline is far. -/
theorem tellsTimeLeft_iff
    (positive : 0 < unit)
    (ofNone : respond none = .integer (-2))
    (ofNegative : ∀ ms : Int64, ms < 0 → respond (some ms) = .integer ms)
    (ofNatural : ∀ ms : Int64, 0 ≤ ms → ∃ left : Int64,
      respond (some ms) = .integer left ∧ left.toInt = ms.toInt / unit) :
    TellsTimeLeft unit now entry (respond (Shard.ttlMs now entry).1) ↔
      ¬FarDeadline now entry := by
  have isCase := ttlMs_case now entry
  generalize (Shard.ttlMs now entry).1 = ttl at isCase ⊢
  cases isCase with
  | missing absent =>
      rw [ofNone]
      refine iff_of_true (TellsTimeLeft.of_missing absent) fun far => ?_
      obtain ⟨stored, deadline, isLive, -⟩ := far.remaining
      rw [absent] at isLive
      cases isLive
  | persistent stored isLive expiry =>
      rw [ofNegative (-1) (by decide)]
      refine iff_of_true (TellsTimeLeft.of_persistent isLive expiry) fun far => ?_
      obtain ⟨other, deadline, isOther, otherExpiry, -⟩ := far.remaining
      rw [isLive] at isOther
      cases isOther
      rw [expiry] at otherExpiry
      cases otherExpiry
  | remaining stored deadline isLive expiry ahead =>
      rw [tellsTimeLeft_remaining_iff isLive expiry]
      by_cases near : deadline.toNat < now.toNat + 2 ^ 63
      · have isLeft := toInt_remaining ahead near
        have before : now.toNat < deadline.toNat := UInt64.lt_iff_toNat_lt.mp ahead
        have natural : (0 : Int64) ≤ (deadline - now).toInt64 := by
          rw [Int64.le_iff_toInt_le, isLeft]
          change (0 : ℤ) ≤ _
          omega
        obtain ⟨left, isReply, inUnits⟩ := ofNatural _ natural
        rw [isLeft] at inUnits
        refine iff_of_true ⟨left, isReply, ?_, ?_⟩ ?_
        · rw [Int64.le_iff_toInt_le, inUnits]
          exact Int.ediv_nonneg (by omega) positive.le
        · have fits : (deadline.toNat : ℤ) - now.toNat ≤ maxI64 := by
            unfold maxI64
            omega
          rw [inUnits, min_eq_left fits]
        · intro far
          obtain ⟨other, otherDeadline, isOther, otherExpiry, distance⟩ := far.remaining
          rw [isLive] at isOther
          cases isOther
          rw [expiry] at otherExpiry
          cases otherExpiry
          omega
      · have negative : (deadline - now).toInt64 < 0 :=
          Int64.lt_iff_toInt_lt.mpr (toInt_remaining_neg (not_lt.mp near))
        rw [ofNegative _ negative]
        refine iff_of_false ?_ (not_not.mpr ?_)
        · rintro ⟨left, same, natural, -⟩
          rw [← RespValue.integer.inj same] at natural
          exact absurd negative (Int64.not_lt.mpr natural)
        · obtain ⟨isStored, -⟩ := Option.filter_eq_some_iff.mp isLive
          exact ⟨stored, deadline, isStored, expiry, not_lt.mp near⟩

end

theorem pttlReply_exact_iff (now : UInt64) (entry : Option Entry) :
    TellsTimeLeft 1 now entry (pttlReply (Shard.ttlMs now entry).1) ↔
      ¬FarDeadline now entry :=
  tellsTimeLeft_iff Int.one_pos rfl (fun _ _ => rfl)
    fun ms _ => ⟨ms, rfl, (Int.ediv_one _).symm⟩

theorem ttlReply_exact_iff (now : UInt64) (entry : Option Entry) :
    TellsTimeLeft 1000 now entry (ttlReply (Shard.ttlMs now entry).1) ↔
      ¬FarDeadline now entry := by
  refine tellsTimeLeft_iff (by decide) rfl (fun ms negative => ?_) fun ms natural =>
    ⟨ms / 1000, ?_, toInt_seconds natural⟩
  · have notNatural : ¬0 ≤ ms := Int64.not_le.mpr negative
    rw [ttlReply, if_neg notNatural]
  · rw [ttlReply, if_pos natural]

/-! ## The commands -/

/-- The commands that give a key a deadline, with the duration in milliseconds
they carry; the last option of a `SET` decides. -/
inductive GivesDeadline (key : Bytes) : Command → List Bytes → ℕ → Prop
  | expire (number : Bytes) (rest : List Bytes) (seconds : UInt64) :
      parseU64 number = some seconds →
      GivesDeadline key .expire (key :: number :: rest)
        (min (seconds.toNat * 1000) maxU64)
  | pexpire (number : Bytes) (rest : List Bytes) (ms : UInt64) :
      parseU64 number = some ms →
      GivesDeadline key .pexpire (key :: number :: rest) ms.toNat
  | setEx (value option number : Bytes) (options : List Bytes) (seconds : UInt64)
      (earlier : Option UInt64) :
      Handler.setOptions none options = .ok earlier →
      toAsciiUppercase option = asBytes "EX" → parseU64 number = some seconds →
      GivesDeadline key .set (key :: value :: (options ++ [option, number]))
        (min (seconds.toNat * 1000) maxU64)
  | setPx (value option number : Bytes) (options : List Bytes) (ms : UInt64)
      (earlier : Option UInt64) :
      Handler.setOptions none options = .ok earlier →
      toAsciiUppercase option = asBytes "PX" → parseU64 number = some ms →
      GivesDeadline key .set (key :: value :: (options ++ [option, number])) ms.toNat

namespace Handler

variable {clock : ℕ → UInt64} {context : HandlerContext} {state : HandlerState}

theorem runFrom_pttl (key : Bytes) (rest : List Bytes) (tick : ℕ) :
    (runFrom clock (handleCommand context .pttl (key :: rest)) state tick).1 =
      pttlReply (Shard.ttlMs (clock tick) (state.db.lookup key)).1 := rfl

theorem runFrom_ttl (key : Bytes) (rest : List Bytes) (tick : ℕ) :
    (runFrom clock (handleCommand context .ttl (key :: rest)) state tick).1 =
      ttlReply (Shard.ttlMs (clock tick) (state.db.lookup key)).1 := rfl

/-- Options read one pair after the other. -/
theorem setOptions_append
    (first : Option UInt64) (options rest : List Bytes) {expireMs : Option UInt64}
    (accepted : setOptions first options = .ok expireMs) :
    setOptions first (options ++ rest) = setOptions expireMs rest := by
  fun_induction setOptions first options with
  | case1 first =>
      cases accepted
      rfl
  | case2 first => cases accepted
  | case3 first option value others number isEx ih =>
      rw [List.cons_append, List.cons_append, setOptions, if_pos isEx]
      exact ih accepted
  | case4 first option value others number notEx isPx ih =>
      rw [List.cons_append, List.cons_append, setOptions, if_neg notEx, if_pos isPx]
      exact ih accepted
  | case5 => cases accepted

/-- `SET` with a duration stores a deadline that far from the clock. -/
theorem lookup_setExpiring
    {key value : Bytes} {options : List Bytes} {ms : UInt64}
    (nonempty : options ≠ [])
    (accepted : setOptions none options = .ok (some ms)) (tick : ℕ) :
    ∃ stored,
      (runFrom clock (handleCommand context .set (key :: value :: options)) state
        tick).2.1.db.lookup key = some stored ∧
      stored.expiresAt = some (saturatingAddU64 (clock tick) ms) := by
  obtain ⟨option, others, rfl⟩ := List.exists_cons_of_ne_nil nonempty
  have parsed : parseSetArgs (key :: value :: option :: others) =
      .ok (key, value, some ms) := by
    rw [parseSetArgs, accepted]
    rfl
  have left : (runFrom clock (handleCommand context .set (key :: value :: option :: others))
      state tick).2.1.db = (state.db.access key (Shard.setStringRef value
        (some (saturatingAddU64 (clock tick) ms)))).2 := by
    change (runFrom clock (set context (key :: value :: option :: others)) state
      tick).2.1.db = _
    unfold set
    dsimp only
    rw [parsed]
    dsimp only
    unfold entry perform
    rw [Program.perform_bind, runFrom_call, Program.perform_bind, runFrom_call, runFrom_bind]
    exact runFrom_logCmd_db context .set _ _ _
  rw [left, Db.lookup_access, if_pos rfl]
  unfold Shard.setStringRef
  cases state.db.lookup key with
  | none => exact ⟨_, rfl, rfl⟩
  | some stored => exact ⟨_, rfl, rfl⟩

/-- `EXPIRE` and `PEXPIRE` move the deadline of a stored entry. -/
theorem runFrom_expire
    {cmd : Command} {args : List Bytes} {key : Bytes} {ms : UInt64} {stored : Entry}
    (isStored : state.db.lookup key = some stored) (tick : ℕ) :
    (runFrom clock (expire context cmd args key ms) state tick).2.1.db.lookup key =
      some { stored with expiresAt := some (saturatingAddU64 (clock tick) ms) } := by
  unfold expire
  rw [(runFrom_change state tick).2, Db.lookup_access, if_pos rfl, isStored]
  rfl

/-- A command with a duration leaves the deadline `min(now + ms, u64::MAX)`. -/
theorem lookup_givesDeadline
    {cmd : Command} {args : List Bytes} {key : Bytes} {ms : ℕ} {tick : ℕ}
    (gives : GivesDeadline key cmd args ms)
    (isLive : (state.db.visible (clock tick) key).isSome = true) :
    ∃ stored deadline,
      (runFrom clock (handleCommand context cmd args) state tick).2.1.db.lookup key =
        some stored ∧ stored.expiresAt = some deadline ∧
      deadline.toNat = min ((clock tick).toNat + ms) maxU64 := by
  obtain ⟨found, isFound⟩ := Option.isSome_iff_exists.mp isLive
  obtain ⟨isStored, -⟩ := Option.filter_eq_some_iff.mp isFound
  cases gives with
  | expire number rest seconds isNumber =>
      refine ⟨{ found with expiresAt := some _ },
        saturatingAddU64 (clock tick) (saturatingMulU64 seconds 1000), ?_, rfl, ?_⟩
      · have handler : handleCommand context .expire (key :: number :: rest) =
            expire context .expire (key :: number :: rest) key
              (saturatingMulU64 ((parseU64 number).getD 0) 1000) := rfl
        rw [handler, isNumber]
        exact runFrom_expire isStored tick
      · rw [toNat_saturatingAddU64, toNat_saturatingMulU64]
        rfl
  | pexpire number rest ms isNumber =>
      refine ⟨{ found with expiresAt := some _ }, saturatingAddU64 (clock tick) ms, ?_, rfl,
        toNat_saturatingAddU64 _ _⟩
      have handler : handleCommand context .pexpire (key :: number :: rest) =
          expire context .pexpire (key :: number :: rest) key
            ((parseU64 number).getD 0) := rfl
      rw [handler, isNumber]
      exact runFrom_expire isStored tick
  | setEx value option number options seconds earlier accepted isEx isNumber =>
      have all : setOptions none (options ++ [option, number]) =
          .ok (some (saturatingMulU64 seconds 1000)) := by
        rw [setOptions_append none options _ accepted, setOptions, if_pos isEx, isNumber]
        rfl
      obtain ⟨stored, isSet, expiry⟩ := lookup_setExpiring (by simp) all tick
      refine ⟨stored, _, isSet, expiry, ?_⟩
      rw [toNat_saturatingAddU64, toNat_saturatingMulU64]
      rfl
  | setPx value option number options ms earlier accepted isPx isNumber =>
      have notEx : toAsciiUppercase option ≠ asBytes "EX" := by
        rw [isPx]
        decide
      have all : setOptions none (options ++ [option, number]) = .ok (some ms) := by
        rw [setOptions_append none options _ accepted, setOptions, if_neg notEx,
          if_pos isPx, isNumber]
        rfl
      obtain ⟨stored, isSet, expiry⟩ := lookup_setExpiring (by simp) all tick
      exact ⟨stored, _, isSet, expiry, toNat_saturatingAddU64 _ _⟩

end Handler

/-! ## The law -/

/-- `PTTL` and `TTL` of a key, run on a state at the clock's reading of a call,
tell what is left of the entry stored there. -/
structure TtlRepliesExact
    (clock : ℕ → UInt64) (context : HandlerContext) (state : HandlerState) (tick : ℕ)
    (key : Bytes) : Prop where
  pttl : TellsTimeLeft 1 (clock tick) (state.db.lookup key)
    (Handler.runFrom clock (Handler.handleCommand context .pttl [key]) state tick).1
  ttl : TellsTimeLeft 1000 (clock tick) (state.db.lookup key)
    (Handler.runFrom clock (Handler.handleCommand context .ttl [key]) state tick).1

theorem ttlRepliesExact_iff_notFar
    (clock : ℕ → UInt64) (context : HandlerContext) (state : HandlerState) (tick : ℕ)
    (key : Bytes) :
    TtlRepliesExact clock context state tick key ↔
      ¬FarDeadline (clock tick) (state.db.lookup key) := by
  have pttl := pttlReply_exact_iff (clock tick) (state.db.lookup key)
  have ttl := ttlReply_exact_iff (clock tick) (state.db.lookup key)
  rw [← Handler.runFrom_pttl key []] at pttl
  rw [← Handler.runFrom_ttl key []] at ttl
  exact ⟨fun exact_ => pttl.mp exact_.pttl, fun near => ⟨pttl.mpr near, ttl.mpr near⟩⟩

/-- The replies of `TTL` and `PTTL` are exact in a state unless the key has a
deadline 2⁶³ milliseconds or more ahead.  A command with a duration leaves a
live key the deadline `min(now + ms, u64::MAX)`, and the replies after it are
exact while that lies less than 2⁶³ milliseconds ahead. -/
theorem ttl_replies_exact_iff
    (clock : ℕ → UInt64) (context : HandlerContext) (state : HandlerState) (tick : ℕ)
    (key : Bytes) :
    (TtlRepliesExact clock context state tick key ↔
      ¬FarDeadline (clock tick) (state.db.lookup key)) ∧
    ∀ (cmd : Command) (args : List Bytes) (ms : ℕ), GivesDeadline key cmd args ms →
      (state.db.visible (clock tick) key).isSome = true →
      let after := (Handler.runFrom clock (Handler.handleCommand context cmd args) state
        tick).2.1
      (∃ stored deadline, after.db.lookup key = some stored ∧
        stored.expiresAt = some deadline ∧
        deadline.toNat = min ((clock tick).toNat + ms) maxU64) ∧
      ∀ later, TtlRepliesExact clock context after later key ↔
        min ((clock tick).toNat + ms) maxU64 < (clock later).toNat + 2 ^ 63 := by
  refine ⟨ttlRepliesExact_iff_notFar clock context state tick key, ?_⟩
  intro cmd args ms gives isLive after
  obtain ⟨stored, deadline, isStored, expiry, isDeadline⟩ :=
    @Handler.lookup_givesDeadline clock context state _ _ _ _ _ gives isLive
  refine ⟨⟨stored, deadline, isStored, expiry, isDeadline⟩, fun later => ?_⟩
  rw [ttlRepliesExact_iff_notFar, isStored, ← isDeadline, ← not_le, not_iff_not]
  constructor
  · rintro ⟨other, otherDeadline, isOther, otherExpiry, distance⟩
    cases isOther
    rw [expiry] at otherExpiry
    cases otherExpiry
    exact distance
  · intro distance
    exact ⟨stored, deadline, rfl, expiry, distance⟩

/-- A database that holds the string `v` under the key `k`. -/
def oneString : Db := Db.empty.put (asBytes "k") (some ⟨.string (asBytes "v"), none⟩)

/-- The reading of the clock on a day of the year 2023. -/
def wallClock : UInt64 := 1700000000000

theorem oneString_live :
    (oneString.visible wallClock (asBytes "k")).isSome = true := by
  rw [Db.visible, oneString, Db.lookup_put, if_pos rfl]
  rfl

/-- `PEXPIRE` with the largest duration. -/
theorem givesDeadline_largest :
    GivesDeadline (asBytes "k") .pexpire
      [asBytes "k", asBytes "18446744073709551615"] maxU64 :=
  .pexpire (asBytes "18446744073709551615") [] 18446744073709551615 (by decide)

/-- `PEXPIRE k 60000`. -/
theorem givesDeadline_minute :
    GivesDeadline (asBytes "k") .pexpire [asBytes "k", asBytes "60000"] 60000 :=
  .pexpire (asBytes "60000") [] 60000 (by decide)

theorem ttl_replies_exact_minute :
    (TtlRepliesExact (fun _ => wallClock) ⟨none, true⟩ ⟨oneString, [], fun _ => none⟩ 0
        (asBytes "k") ↔
      ¬FarDeadline wallClock (oneString.lookup (asBytes "k"))) ∧
    ∀ later, TtlRepliesExact (fun _ => wallClock) ⟨none, true⟩
      (Handler.runFrom (fun _ => wallClock) (Handler.handleCommand ⟨none, true⟩ .pexpire
        [asBytes "k", asBytes "60000"]) ⟨oneString, [], fun _ => none⟩ 0).2.1 later
      (asBytes "k") := by
  have law := ttl_replies_exact_iff (fun _ => wallClock) ⟨none, true⟩
    ⟨oneString, [], fun _ => none⟩ 0 (asBytes "k")
  refine ⟨law.1, fun later => ?_⟩
  exact ((law.2 .pexpire _ 60000 givesDeadline_minute oneString_live).2 later).mpr (by decide)

/-- After `PEXPIRE k 18446744073709551615` the replies are negative. -/
theorem ttl_replies_not_always_exact :
    ¬∀ (clock : ℕ → UInt64) (context : HandlerContext) (state : HandlerState) (tick : ℕ)
      (key : Bytes) (cmd : Command) (args : List Bytes) (ms : ℕ),
      GivesDeadline key cmd args ms →
      (state.db.visible (clock tick) key).isSome = true →
      ∀ later, TtlRepliesExact clock context
        (Handler.runFrom clock (Handler.handleCommand context cmd args) state tick).2.1
        later key := by
  intro exact_
  have replies := exact_ (fun _ => wallClock) ⟨none, true⟩ ⟨oneString, [], fun _ => none⟩ 0
    (asBytes "k") .pexpire _ maxU64 givesDeadline_largest oneString_live 1
  rw [ttlRepliesExact_iff_notFar] at replies
  obtain ⟨stored, deadline, isStored, expiry, isDeadline⟩ :=
    @Handler.lookup_givesDeadline (fun _ => wallClock) ⟨none, true⟩
      ⟨oneString, [], fun _ => none⟩ _ _ _ _ 0 givesDeadline_largest oneString_live
  refine replies ⟨stored, deadline, isStored, expiry, ?_⟩
  rw [isDeadline]
  decide

end Cache
end MuonJs
