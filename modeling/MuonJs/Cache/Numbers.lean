import MuonJs.Cache.Errors

/-!
# Malformed numbers

Every handler parses its own numbers.  `HINCRBY`, `LINDEX`, `LSET`, `LREM`,
`LPOP`, `RPOP` and `SCAN` reject a text that is no number of the expected type;
the others put a default in its place and go on, so that they reply with an
error only for a reason of another kind.
-/

namespace MuonJs
namespace Cache

/-! ## Numeric positions -/

/-- The types of numeric arguments. -/
inductive NumberType
  | i64
  | u64
  | usize
  | f64

/-- The text is a number of the type. -/
def NumberType.accepts (type : NumberType) (text : Bytes) : Bool :=
  match type with
  | .i64 => (parseI64 text).isSome
  | .u64 => (parseU64 text).isSome
  | .usize => (parseUsize text).isSome
  | .f64 => (parseF64 text).isSome

/-- The values of the options of `SET` that are numbers. -/
def setNumbers : List Bytes → List (NumberType × Bytes)
  | option :: value :: rest =>
      if toAsciiUppercase option = asBytes "EX" ∨
          toAsciiUppercase option = asBytes "PX" then
        (.u64, value) :: setNumbers rest
      else setNumbers rest
  | _ => []

/-- The scores of `ZADD`. -/
def scoreNumbers : List Bytes → List (NumberType × Bytes)
  | score :: _ :: rest => (.f64, score) :: scoreNumbers rest
  | [score] => [(.f64, score)]
  | [] => []

/-- The values of the options of `SCAN` that are numbers. -/
def scanNumbers : List Bytes → List (NumberType × Bytes)
  | option :: value :: rest =>
      if toAsciiUppercase option = asBytes "COUNT" then
        (.usize, value) :: scanNumbers rest
      else scanNumbers rest
  | _ => []

/-- The texts in the numeric positions of a command, with their types. -/
def numericArgs (cmd : Command) (args : List Bytes) : List (NumberType × Bytes) :=
  match cmd, args with
  | .incrby, _ :: delta :: _ | .decrby, _ :: delta :: _ => [(.i64, delta)]
  | .hincrby, _ :: _ :: delta :: _ => [(.i64, delta)]
  | .lrange, _ :: range | .ltrim, _ :: range | .zrange, _ :: range =>
      (range.take 2).map fun text => (.i64, text)
  | .lindex, _ :: index :: _ | .lset, _ :: index :: _ => [(.i64, index)]
  | .lrem, _ :: count :: _ | .lpop, _ :: count :: _ | .rpop, _ :: count :: _ =>
      [(.i64, count)]
  | .zadd, _ :: pairs => scoreNumbers pairs
  | .expire, _ :: number :: _ | .pexpire, _ :: number :: _ => [(.u64, number)]
  | .set, _ :: _ :: options => setNumbers options
  | .scan, cursor :: options => (.usize, cursor) :: scanNumbers options
  | _, _ => []

/-- Some numeric position holds no number of the expected type. -/
def Malformed (cmd : Command) (args : List Bytes) : Prop :=
  ∃ item ∈ numericArgs cmd args, item.1.accepts item.2 = false

/-- The reply is an error and the live contents are what they were, at every
time from the last clock reading on. -/
def Rejected (clock : ℕ → UInt64) (context : HandlerContext) (cmd : Command)
    (args : List Bytes) (state : HandlerState) : Prop :=
  let outcome := Handler.execute clock (Handler.handleCommand context cmd args) state
  outcome.1.isError = true ∧
    ∀ now, (∀ tick < outcome.2.2, clock tick ≤ now) →
      ∀ key, outcome.2.1.db.visible now key = state.db.visible now key

/-! ## When a command rejects -/

/-- Every option of `SET` is `EX` or `PX` and has a value. -/
def SetOptionsPaired : List Bytes → Prop
  | [] => True
  | [_] => False
  | option :: _ :: rest =>
      (toAsciiUppercase option = asBytes "EX" ∨
        toAsciiUppercase option = asBytes "PX") ∧ SetOptionsPaired rest

/-- A live value of another kind is stored under the key. -/
def OtherKind (kind : Value → Option β) (db : Db) (now : UInt64) (key : Bytes) :
    Prop :=
  ∃ entry, db.visible now key = some entry ∧ kind entry.value = none

/-- The number a value holds, if it holds one. -/
def Value.counter (value : Value) : Option Int64 :=
  (Shard.counterOf value).bind Except.toOption

/-- The command rejects numbers by itself, or fails for another reason: the
stored value is of the wrong kind, or the number of arguments or an option of
`SET` is wrong. -/
def FailsAnyway (now : UInt64) (cmd : Command) (args : List Bytes) (db : Db) :
    Prop :=
  match cmd, args with
  | .incrby, key :: _ :: _ | .decrby, key :: _ :: _ =>
      OtherKind Value.counter db now key
  | .lrange, key :: _ :: _ :: _ | .ltrim, key :: _ :: _ :: _ =>
      OtherKind Value.asList db now key
  | .zrange, key :: _ :: _ :: _ => OtherKind Value.asZSet db now key
  | .zadd, key :: pairs =>
      pairs.length < 2 ∨ pairs.length % 2 ≠ 0 ∨ OtherKind Value.asZSet db now key
  | .expire, _ :: _ :: _ | .pexpire, _ :: _ :: _ => False
  | .set, _ :: _ :: options => ¬SetOptionsPaired options
  | _, _ => True

namespace Shard

/-- A method on one kind of value that never fails by itself fails exactly on a
live value of another kind. -/
theorem readAs_isError_iff
    (kind : Value → Option β) (found : β → α) (missing : α)
    (now : UInt64) (entry : Option Entry) :
    (readAs kind found missing now entry).1.isError = true ↔
      ∃ stored, entry.filter (Entry.live now) = some stored ∧
        kind stored.value = none := by
  unfold readAs live
  cases isLive : entry.filter (Entry.live now) with
  | none => exact ⟨nofun, nofun⟩
  | some stored =>
      dsimp only
      cases content : kind stored.value with
      | none => exact ⟨fun _ => ⟨stored, rfl, content⟩, fun _ => rfl⟩
      | some content' =>
          refine ⟨nofun, ?_⟩
          rintro ⟨_, isStored, other⟩
          cases isStored
          rw [content] at other
          cases other

theorem updateAs_isError_iff
    {kind : Value → Option β} {wrap : β → Value}
    {change : β → Fallible α × Option β}
    {missing : Fallible α × Option Value}
    (succeeds : ∀ content, (change content).1.isError = false)
    (succeedsMissing : missing.1.isError = false)
    (now : UInt64) (entry : Option Entry) :
    (updateAs kind wrap change missing now entry).1.isError = true ↔
      ∃ stored, entry.filter (Entry.live now) = some stored ∧
        kind stored.value = none := by
  unfold updateAs live
  cases isLive : entry.filter (Entry.live now) with
  | none =>
      dsimp only
      rw [succeedsMissing]
      exact ⟨nofun, nofun⟩
  | some stored =>
      dsimp only
      cases content : kind stored.value with
      | none => exact ⟨fun _ => ⟨stored, rfl, content⟩, fun _ => rfl⟩
      | some content' =>
          dsimp only
          rw [succeeds]
          refine ⟨nofun, ?_⟩
          rintro ⟨_, isStored, other⟩
          cases isStored
          rw [content] at other
          cases other

theorem incrBy_isError_iff (delta : Int64) (now : UInt64) (entry : Option Entry) :
    (incrBy delta now entry).1.isError = true ↔
      ∃ stored, entry.filter (Entry.live now) = some stored ∧
        stored.value.counter = none := by
  unfold incrBy live
  cases isLive : entry.filter (Entry.live now) with
  | none => exact ⟨nofun, nofun⟩
  | some stored =>
      have only : (∃ other, some stored = some other ∧
          other.value.counter = none) ↔ stored.value.counter = none := by
        constructor
        · rintro ⟨_, isStored, other⟩
          cases isStored
          exact other
        · exact fun other => ⟨stored, rfl, other⟩
      rw [only, Value.counter]
      dsimp only
      match Shard.counterOf stored.value with
      | some (.ok n) => exact ⟨nofun, nofun⟩
      | some (.error ()) => exact ⟨fun _ => rfl, fun _ => rfl⟩
      | none => exact ⟨fun _ => rfl, fun _ => rfl⟩

end Shard

namespace Handler

variable {clock : ℕ → UInt64} {context : HandlerContext} {state : HandlerState}

/-- The reply of the command is an error. -/
def RepliesError (clock : ℕ → UInt64) (context : HandlerContext) (cmd : Command)
    (args : List Bytes) (state : HandlerState) : Prop :=
  (execute clock (handleCommand context cmd args) state).1.isError = true

/-- An error reply rejects: nothing but `SMOVE` fails after a change. -/
theorem rejected_iff
    {cmd : Command} (notMove : cmd ≠ .smove) (args : List Bytes) :
    Rejected clock context cmd args state ↔
      RepliesError clock context cmd args state := by
  refine ⟨fun rejected => rejected.1, fun isError => ⟨isError, ?_⟩⟩
  intro now after key
  apply Db.visible_eq_of_purge_eq
  exact handleCommand_shape.keepsOnError (fun moves => notMove moves.1) isError
    now fun tick _ => after tick

theorem orError_isError_iff
    {message : RespValue} (isMessage : message.isError = true)
    {respond : α → RespValue}
    (succeeds : ∀ value, (respond value).isError = false)
    (result : Fallible α) :
    (orError message respond result).isError = true ↔ result.isError = true := by
  cases result with
  | ok value =>
      rw [orError, succeeds, Fallible.isError]
  | error reason => exact ⟨fun _ => rfl, fun _ => isMessage⟩

/-- A counter command fails exactly on a live value that holds no number. -/
theorem incr_repliesError_iff
    (cmd : Command) (args : List Bytes) (key : Bytes) (delta : Int64) :
    (execute clock (incr context cmd args key delta) state).1.isError = true ↔
      OtherKind Value.counter state.db (clock 0) key := by
  unfold incr execute
  rw [(runFrom_change state 0).1, orError_isError_iff rfl fun _ => rfl]
  exact Shard.incrBy_isError_iff delta (clock 0) (state.db.lookup key)

theorem logAndReply_isError_iff
    (cmd : Command) (args : List Bytes) (result : Fallible Int64) (tick : ℕ) :
    (runFrom clock (logAndReply context cmd args .integer result)
      state tick).1.isError = true ↔ result.isError = true := by
  refine ⟨logAndReply_isError, fun fails => ?_⟩
  rw [Fallible.isError_iff.mp fails]
  rfl

/-- A loop fails exactly when its first call does. -/
theorem Loops.call_isError_iff
    {key probe : Bytes} {kind : Value → Option β} {op : EntryOp}
    {next : op.Result → Handler (Fallible α)}
    (loops : Loops key kind
      (@Program.call HandlerCall.signature _ (.db (.entry probe op)) next))
    (tick : ℕ) :
    (runFrom clock (@Program.call HandlerCall.signature _
        (.db (.entry probe op)) next) state tick).1.isError = true ↔
      op.failed (op.apply (clock tick) (state.db.lookup probe)).1 = true := by
  cases loops with
  | step op next steady continues stops =>
      rw [runFrom_call]
      cases failed : op.failed
          (op.apply (clock tick) (state.db.lookup key)).1 with
      | true =>
          refine ⟨fun _ => rfl, fun _ => ?_⟩
          change (runFrom clock (next (op.apply (clock tick)
            (state.db.lookup key)).1) _ _).1.isError = true
          rw [stops _ failed]
          rfl
      | false =>
          refine ⟨fun fails => ?_, nofun⟩
          refine absurd
            (fails.symm.trans ((continues _ failed).succeeds (tick + 1) ?_)) nofun
          exact fun stored => steady.leaves (clock tick) _ failed stored ∘
            (lookup_exec_entry key op (clock tick) state).symm.trans

theorem zadd_repliesError_iff (key : Bytes) (pairs : List Bytes) :
    RepliesError clock context .zadd (key :: pairs) state ↔
      pairs.length < 2 ∨ pairs.length % 2 ≠ 0 ∨
        OtherKind Value.asZSet state.db (clock 0) key := by
  change (execute clock (if (key :: pairs).length < 3 ∨
      ((key :: pairs).length - 1) % 2 ≠ 0 then
        .pure (.wrongArguments "ZADD")
      else do
        logAndReply context .zadd (key :: pairs) .integer
          (← zaddLoop key 0 pairs)) state).1.isError = true ↔ _
  rw [List.length_cons, Nat.add_sub_cancel]
  by_cases wrong : pairs.length + 1 < 3 ∨ pairs.length % 2 ≠ 0
  · rw [if_pos wrong]
    refine ⟨fun _ => ?_, fun _ => rfl⟩
    rcases wrong with short | odd
    · exact .inl (by omega)
    · exact .inr (.inl odd)
  · rw [if_neg wrong, execute, runFrom_bind, logAndReply_isError_iff]
    rw [not_or, not_lt, not_not] at wrong
    cases pairs with
    | nil => exact absurd wrong.1 (by decide)
    | cons score pairs =>
      cases pairs with
      | nil => exact absurd wrong.1 (by simp)
      | cons member rest =>
        refine (Loops.call_isError_iff
          (zaddLoop_loops key 0 (score :: member :: rest)) 0).trans ?_
        refine (Shard.updateAs_isError_iff (fun _ => rfl) rfl (clock 0)
          (state.db.lookup key)).trans ?_
        constructor
        · exact fun other => .inr (.inr other)
        · rintro (short | odd | other)
          · exact absurd wrong.1 (by omega)
          · exact absurd wrong.2 odd
          · exact other

/-- The option loop of `SET` accepts exactly the paired options. -/
theorem setOptions_error_iff (expireMs : Option UInt64) (options : List Bytes) :
    (∃ message, setOptions expireMs options = .error message) ↔
      ¬SetOptionsPaired options := by
  fun_induction setOptions expireMs options with
  | case1 expireMs => exact ⟨nofun, fun unpaired => absurd trivial unpaired⟩
  | case2 expireMs option => exact ⟨fun _ => id, fun _ => ⟨_, rfl⟩⟩
  | case3 expireMs option value rest number isSeconds ih =>
      rw [ih, SetOptionsPaired, and_iff_right (.inl isSeconds)]
  | case4 expireMs option value rest number notSeconds isMillis ih =>
      rw [ih, SetOptionsPaired, and_iff_right (.inr isMillis)]
  | case5 expireMs option value rest notSeconds notMillis =>
      refine ⟨fun _ paired => ?_, fun _ => ⟨_, rfl⟩⟩
      exact paired.1.elim notSeconds notMillis

theorem set_repliesError_iff (key value : Bytes) (options : List Bytes) :
    RepliesError clock context .set (key :: value :: options) state ↔
      ¬SetOptionsPaired options := by
  rw [← setOptions_error_iff none options]
  change (execute clock (set context (key :: value :: options))
    state).1.isError = true ↔ _
  unfold execute set
  match options with
  | [] =>
      refine ⟨fun isError => ?_, nofun⟩
      simp only [runFrom_bind] at isError
      cases isError
  | option :: options =>
      dsimp only [parseSetArgs]
      cases parsed : setOptions none (option :: options) with
      | error message => exact ⟨fun _ => ⟨message, rfl⟩, fun _ => rfl⟩
      | ok expireMs =>
          refine ⟨fun isError => ?_, nofun⟩
          cases expireMs with
          | none | some =>
              simp only [Except.map, runFrom_bind] at isError
              cases isError

/-- A command with one call fails exactly when its method does. -/
theorem answer_isError_iff
    (key : Bytes) (op : EntryOp) (respond : op.Result → RespValue) :
    (execute clock (answer key op respond) state).1.isError = true ↔
      (respond (op.apply (clock 0) (state.db.lookup key)).1).isError = true :=
  Iff.rfl

theorem change_isError_iff
    {cmd : Command} {args : List Bytes} {key : Bytes} {op : EntryOp}
    {logs : op.Result → Bool} {respond : op.Result → RespValue} :
    (execute clock (change context cmd args key op logs respond)
        state).1.isError = true ↔
      (respond (op.apply (clock 0) (state.db.lookup key)).1).isError = true := by
  rw [execute, (runFrom_change state 0).1]

/-- A text that the parser does not accept has no value. -/
theorem eq_none_of_not_isSome {value : Option α} (notSome : value.isSome = false) :
    value = none :=
  Option.not_isSome_iff_eq_none.mp (by rw [notSome]; nofun)

/-- A malformed number among the options of `SCAN` is an error. -/
theorem scanOptions_error
    (pattern : Bytes) (count : ℕ) (options : List Bytes)
    {item : NumberType × Bytes} (isNumeric : item ∈ scanNumbers options)
    (notNumber : item.1.accepts item.2 = false) :
    ∃ message, scanOptions pattern count options = .error message := by
  fun_induction scanOptions pattern count options with
  | case1 pattern count => cases isNumeric
  | case2 pattern count option => exact ⟨_, rfl⟩
  | case3 pattern count option value rest isMatch ih =>
      apply ih
      rw [scanNumbers, if_neg] at isNumeric
      · exact isNumeric
      · rw [isMatch]
        decide
  | case4 pattern count option value rest notMatch isCount invalid =>
      exact ⟨_, rfl⟩
  | case5 pattern count option value rest notMatch isCount number valid ih =>
      apply ih
      rw [scanNumbers, if_pos isCount] at isNumeric
      rcases List.mem_cons.mp isNumeric with rfl | inRest
      · rw [NumberType.accepts, valid] at notNumber
        cases notNumber
      · exact inRest
  | case6 pattern count option value rest notMatch notCount => exact ⟨_, rfl⟩

theorem scan_repliesError
    {args : List Bytes} {item : NumberType × Bytes}
    (isNumeric : item ∈ numericArgs .scan args)
    (notNumber : item.1.accepts item.2 = false) :
    RepliesError clock context .scan args state := by
  change (execute clock (scan args) state).1.isError = true
  match args with
  | [] => cases isNumeric
  | cursor :: options =>
      unfold scan
      dsimp only
      cases parsed : parseUsize cursor with
      | none => rfl
      | some number =>
          rcases List.mem_cons.mp isNumeric with rfl | inOptions
          · rw [NumberType.accepts, parsed] at notNumber
            cases notNumber
          · obtain ⟨message, fails⟩ :=
              scanOptions_error (asBytes "*") 10 options inOptions notNumber
            dsimp only
            rw [fails]
            rfl

/-- With a malformed number, a command replies with an error exactly when it
fails anyway. -/
theorem repliesError_iff
    {cmd : Command} {args : List Bytes} (malformed : Malformed cmd args) :
    RepliesError clock context cmd args state ↔
      FailsAnyway (clock 0) cmd args state.db := by
  obtain ⟨item, isNumeric, notNumber⟩ := malformed
  cases cmd with
  | incrby | decrby =>
      match args with
      | [] | [_] => cases isNumeric
      | key :: delta :: _ => exact incr_repliesError_iff _ _ _ _
  | hincrby =>
      match args with
      | [] | [_] | [_, _] => cases isNumeric
      | key :: field :: delta :: rest =>
          obtain rfl := List.mem_singleton.mp isNumeric
          refine ⟨fun _ => trivial, fun _ => ?_⟩
          have invalid : parseI64 delta = none := eq_none_of_not_isSome notNumber
          unfold RepliesError handleCommand keyCmds stringCmds hashCmds
          dsimp only
          rw [invalid]
          rfl
  | lrange | zrange =>
      match args with
      | [] => cases isNumeric
      | [_] => cases isNumeric
      | [_, _] => exact ⟨fun _ => trivial, fun _ => rfl⟩
      | key :: start :: stop :: _ =>
          refine (answer_isError_iff key _ _).trans ?_
          rw [orWrongType, orError_isError_iff rfl fun _ => rfl]
          exact Shard.readAs_isError_iff _ _ _ _ _
  | ltrim =>
      match args with
      | [] => cases isNumeric
      | [_] => cases isNumeric
      | [_, _] => exact ⟨fun _ => trivial, fun _ => rfl⟩
      | key :: start :: stop :: _ =>
          refine change_isError_iff.trans ?_
          rw [orWrongType, orError_isError_iff rfl fun _ => rfl]
          exact Shard.updateAs_isError_iff (fun _ => rfl) rfl _ _
  | lindex =>
      match args with
      | [] | [_] => cases isNumeric
      | key :: index :: _ =>
          obtain rfl := List.mem_singleton.mp isNumeric
          have invalid : parseI64 index = none := eq_none_of_not_isSome notNumber
          refine ⟨fun _ => trivial, fun _ => ?_⟩
          unfold RepliesError handleCommand keyCmds stringCmds hashCmds listCmds
          dsimp only
          rw [invalid]
          rfl
  | lset | lrem =>
      match args with
      | [] | [_] => cases isNumeric
      | [_, _] => exact ⟨fun _ => trivial, fun _ => rfl⟩
      | key :: number :: _ :: _ =>
          obtain rfl := List.mem_singleton.mp isNumeric
          have invalid : parseI64 number = none := eq_none_of_not_isSome notNumber
          refine ⟨fun _ => trivial, fun _ => ?_⟩
          unfold RepliesError handleCommand keyCmds stringCmds hashCmds listCmds
          dsimp only
          rw [invalid]
          rfl
  | lpop | rpop =>
      match args with
      | [] | [_] => cases isNumeric
      | [_, count] =>
          obtain rfl := List.mem_singleton.mp isNumeric
          have invalid : parseI64 count = none := eq_none_of_not_isSome notNumber
          refine ⟨fun _ => trivial, fun _ => ?_⟩
          unfold RepliesError handleCommand keyCmds stringCmds hashCmds listCmds pop
          dsimp only
          rw [invalid]
          rfl
      | _ :: _ :: _ :: _ => exact ⟨fun _ => trivial, fun _ => rfl⟩
  | zadd =>
      match args with
      | [] => cases isNumeric
      | key :: pairs => exact zadd_repliesError_iff key pairs
  | set =>
      match args with
      | [] | [_] => cases isNumeric
      | key :: value :: options => exact set_repliesError_iff key value options
  | expire | pexpire =>
      match args with
      | [] | [_] => cases isNumeric
      | key :: _ :: _ =>
          refine ⟨fun isError => ?_, False.elim⟩
          exact absurd (change_isError_iff.mp isError) nofun
  | scan => exact ⟨fun _ => trivial, fun _ => scan_repliesError isNumeric notNumber⟩
  | _ => cases isNumeric

end Handler

/-- A malformed number is rejected exactly when the command fails anyway. -/
theorem rejected_iff_failsAnyway
    (clock : ℕ → UInt64) (context : HandlerContext) (cmd : Command)
    (args : List Bytes) (state : HandlerState) (malformed : Malformed cmd args) :
    Rejected clock context cmd args state ↔
      FailsAnyway (clock 0) cmd args state.db := by
  have notMove : cmd ≠ .smove := by
    rintro rfl
    obtain ⟨item, isNumeric, -⟩ := malformed
    cases isNumeric
  rw [Handler.rejected_iff notMove, Handler.repliesError_iff malformed]

/-- `LINDEX` rejects a malformed index. -/
theorem rejected_iff_failsAnyway_lindex :
    Rejected (fun _ => 0) ⟨none, false⟩ .lindex [asBytes "l", asBytes "x"]
      ⟨Db.empty, [], fun _ => none⟩ :=
  (rejected_iff_failsAnyway (fun _ => 0) _ .lindex [asBytes "l", asBytes "x"] _
    ⟨(.i64, asBytes "x"), List.mem_singleton.mpr rfl, rfl⟩).mpr trivial

/-- `EXPIRE k abc` is answered with success. -/
theorem not_always_rejected :
    ¬∀ (clock : ℕ → UInt64) (context : HandlerContext) (cmd : Command)
      (args : List Bytes) (state : HandlerState), Malformed cmd args →
      Rejected clock context cmd args state := by
  intro always
  have rejected := always (fun _ => 0) ⟨none, false⟩ .expire
    [asBytes "k", asBytes "abc"]
    ⟨Db.empty.put (asBytes "k") (some ⟨.int 1, none⟩), [], fun _ => none⟩
    ⟨(.u64, asBytes "abc"), List.mem_singleton.mpr rfl, rfl⟩
  exact absurd (Handler.change_isError_iff.mp rejected.1) nofun

end Cache
end MuonJs
