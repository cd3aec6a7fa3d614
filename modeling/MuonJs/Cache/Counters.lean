import MuonJs.Cache.Numbers
import MuonJs.Cache.Representation

/-!
# Counters

`INCR`, `INCRBY`, `DECR` and `DECRBY` add to the number under a key with
`saturating_add`, and `HINCRBY` to the number in a field of a hash with
`wrapping_add`; `DECRBY` negates its argument first.  None of them notices that
the sum leaves the range of `i64`, so a counter is exact where it does not, but
for `DECRBY` by the smallest number.
-/

namespace MuonJs
namespace Cache

/-! ## The two parsers of numbers -/

namespace Store

/-- The digit loop gives up on exactly the values above `i64::MAX + 1`. -/
theorem parseI64Loop_eq {value : ℕ} (digits : Bytes) (inRange : value ≤ 2 ^ 63) :
    parseI64Loop value digits =
      ((digitsFrom value digits).filter (· ≤ 2 ^ 63)).map Int.ofNat := by
  induction digits generalizing value with
  | nil =>
      rw [parseI64Loop, digitsFrom, Option.filter_some, if_pos (decide_eq_true inRange)]
      rfl
  | cons byte rest ih =>
      have digit_iff : (byte < 48 || byte > 57) = !isAsciiDigit byte := by
        rw [isAsciiDigit, Bool.not_and]
        simp only [← decide_not, UInt8.not_le]
      rw [parseI64Loop, digitsFrom, digit_iff]
      cases isDigit : isAsciiDigit byte with
      | false => rfl
      | true =>
          rw [if_neg (by decide), if_pos rfl]
          dsimp only
          have next : (value : ℤ) * 10 + (byte.toNat - 48 : ℕ) =
              (value * 10 + (byte.toNat - 48) : ℕ) := by
            push_cast
            rfl
          rw [next]
          by_cases isLarge : value * 10 + (byte.toNat - 48) ≤ 2 ^ 63
          · rw [if_neg (by omega), ih isLarge]
          · rw [if_pos (by omega)]
            cases isTotal : digitsFrom (value * 10 + (byte.toNat - 48)) rest with
            | none => rfl
            | some total =>
                have larger := le_of_digitsFrom isTotal
                rw [Option.filter_some, if_neg (by rw [decide_eq_true_eq]; omega)]
                rfl

/-- The store's parser accepts what `str::parse` does. -/
theorem parseI64Bytes_eq (text : Bytes) : parseI64Bytes text = parseI64 text := by
  have signed (sign : ℤ) (isSign : sign = 1 ∨ sign = -1) (digits : Bytes) :
      (if digits.isEmpty then none
        else (parseI64Loop 0 digits).bind fun value => toI64 (sign * value)) =
        (digitsValue digits).bind fun value => toI64 (sign * value) := by
    cases digits with
    | nil => rfl
    | cons digit digits =>
        rw [List.isEmpty_cons, if_neg Bool.false_ne_true, digitsValue]
        · have loop := @parseI64Loop_eq 0 (digit :: digits) (Nat.zero_le _)
          rw [Int.ofNat_zero] at loop
          rw [loop]
          cases isTotal : digitsFrom 0 (digit :: digits) with
          | none => rfl
          | some total =>
              rw [Option.filter_some, Option.bind_some]
              by_cases inRange : total ≤ 2 ^ 63
              · rw [if_pos (decide_eq_true inRange)]
                rfl
              · rw [if_neg (by rwa [decide_eq_true_eq]), Option.map_none, Option.bind_none, toI64,
                  if_neg]
                rcases isSign with rfl | rfl <;> omega
        · exact List.cons_ne_nil digit digits
  fun_cases parseI64 text with
  | case1 digits =>
      refine (signed (-1) (.inr rfl) digits).trans ?_
      simp only [neg_one_mul]
  | case2 digits =>
      refine (signed 1 (.inl rfl) digits).trans ?_
      simp only [one_mul]
  | case3 _ notMinus notPlus =>
      have unsigned := signed 1 (.inl rfl) text
      simp only [one_mul] at unsigned
      rw [← unsigned]
      unfold parseI64Bytes
      split
      rename_i isSplit
      split at isSplit
      · exact (notMinus _ rfl).elim
      · exact (notPlus _ rfl).elim
      · cases isSplit
        simp only [one_mul]

end Store

theorem parseI64_writeI64Bytes (n : Int64) : parseI64 (writeI64Bytes n) = some n := by
  rw [← Store.parseI64Bytes_eq, Store.parseI64Bytes_writeI64Bytes]

/-! ## Counter commands -/

/-- What a command counts: the number under a key, or in a field of the hash
under it, and the change asked for. -/
structure Counter where
  key : Bytes
  field : Option Bytes
  change : ℤ

/-- The counter of a command whose change is the decimal text of an `i64`. -/
def Command.counter (cmd : Command) (args : List Bytes) : Option Counter :=
  match cmd, args with
  | .incr, key :: _ => some ⟨key, none, 1⟩
  | .incrby, key :: delta :: _ =>
      (parseI64 delta).map fun delta => ⟨key, none, delta.toInt⟩
  | .decr, key :: _ => some ⟨key, none, -1⟩
  | .decrby, key :: delta :: _ =>
      (parseI64 delta).map fun delta => ⟨key, none, -delta.toInt⟩
  | .hincrby, key :: field :: delta :: _ =>
      (parseI64 delta).map fun delta => ⟨key, some field, delta.toInt⟩
  | _, _ => none

namespace Counter

/-- The key or the field holds the decimal text of the number. -/
def Holds (counter : Counter) (stored : Entry) (n : Int64) : Prop :=
  match counter.field with
  | none =>
      stored.value = .int n ∨ ∃ text, stored.value = .string text ∧ parseI64 text = some n
  | some field =>
      ∃ fields text, stored.value = .hash fields ∧ fields.get field = some text ∧
        parseI64 text = some n

/-- Nothing is stored under the key, or in the field. -/
def Absent (counter : Counter) (entry : Option Entry) : Prop :=
  entry = none ∨ ∃ stored field fields, entry = some stored ∧ counter.field = some field ∧
    stored.value = .hash fields ∧ fields.get field = none

/-- The number counted from; an absent one reads as zero. -/
def Reads (counter : Counter) (entry : Option Entry) (n : Int64) : Prop :=
  (∃ stored, entry = some stored ∧ counter.Holds stored n) ∨ counter.Absent entry ∧ n = 0

end Counter

/-- The command returns the sum and stores it, with the expiry there was; it is
rejected when the sum is no `i64`. -/
def CountsExactly (clock : ℕ → UInt64) (context : HandlerContext) (cmd : Command)
    (args : List Bytes) (state : HandlerState) (counter : Counter) (n : Int64) : Prop :=
  let outcome := Handler.execute clock (Handler.handleCommand context cmd args) state
  (∀ total : Int64, total.toInt = n.toInt + counter.change →
    outcome.1 = .integer total ∧
      ∃ stored, outcome.2.1.db.lookup counter.key = some stored ∧
        counter.Holds stored total ∧
        stored.expiresAt = (state.db.visible (clock 0) counter.key).bind Entry.expiresAt) ∧
  ((∀ total : Int64, total.toInt ≠ n.toInt + counter.change) →
    Rejected clock context cmd args state)

/-! ## What the methods store -/

namespace HashStore

theorem findField_replaceField
    {fields : List (Bytes × Bytes)} {field : Bytes} (present : field ∈ fields.map Prod.fst)
    (value : Bytes) : findField (replaceField fields field value) field = some value := by
  induction fields with
  | nil => cases present
  | cons pair fields ih =>
      by_cases isField : pair.1 = field
      · simp [findField, replaceField, isField]
      · have inRest : field ∈ fields.map Prod.fst :=
          (List.mem_cons.mp present).resolve_left (Ne.symm isField)
        have rest := ih inRest
        unfold findField replaceField at rest ⊢
        rw [List.map_cons, if_neg isField, List.find?_cons_of_neg (by simpa using isField)]
        exact rest

/-- What was inserted is found. -/
theorem get_insert (store : HashStore) (field value : Bytes) :
    (store.insert field value).2.get field = some value := by
  cases store with
  | linear fields distinct small =>
      rw [insert]
      by_cases present : field ∈ fields.map Prod.fst
      · rw [dif_pos present]
        exact findField_replaceField present value
      · rw [dif_neg present]
        by_cases room : fields.length < hashLinearThreshold
        · rw [dif_pos room]
          have absent : fields.find? (fun pair => pair.1 == field) = none := by
            rw [List.find?_eq_none]
            intro pair isPair same
            exact present (List.mem_map.mpr ⟨pair, isPair, beq_iff_eq.mp same⟩)
          simp [get, findField, absent]
        · rw [dif_neg room]
          exact Std.ExtTreeMap.getElem?_insert_self
  | map fields => exact Std.ExtTreeMap.getElem?_insert_self

end HashStore

namespace Shard

/-- `incr_by` saturates from the number read. -/
theorem incrBy_reads
    {key : Bytes} {change : ℤ} {delta : Int64} {now : UInt64} {entry : Option Entry} {n : Int64}
    (reads : Counter.Reads ⟨key, none, change⟩ (entry.filter (Entry.live now)) n) :
    incrBy delta now entry =
      (.ok (saturatingAddI64 n delta),
        some ⟨.int (saturatingAddI64 n delta),
          (entry.filter (Entry.live now)).bind Entry.expiresAt⟩) := by
  unfold incrBy live
  rcases reads with ⟨stored, isStored, holds⟩ | ⟨absent, isZero⟩
  · have isCounter : counterOf stored.value = some (.ok n) := by
      rcases holds with isInt | ⟨text, isString, isText⟩
      · rw [isInt]
        rfl
      · rw [isString, counterOf, Store.parseI64Bytes_eq, isText]
    rw [isStored]
    dsimp only
    rw [isCounter]
    rfl
  · rcases absent with isNone | ⟨_, _, _, _, isField, _⟩
    · have fromZero : saturatingAddI64 0 delta = delta := by
        have atLeast := Int64.le_toInt delta
        have lessThan := Int64.toInt_lt delta
        rw [saturatingAddI64, Int64.toInt_zero, zero_add, min_eq_right (by omega),
          max_eq_right (by omega), Int64.ofInt_toInt]
      rw [isNone, isZero, fromZero]
      rfl
    · cases isField

/-- `hash_incr_by` wraps from the number read. -/
theorem hashIncrBy_reads
    {key field : Bytes} {change : ℤ} {delta : Int64} {now : UInt64} {entry : Option Entry}
    {n : Int64}
    (reads : Counter.Reads ⟨key, some field, change⟩ (entry.filter (Entry.live now)) n) :
    (hashIncrBy field delta now entry).1 = .ok (n + delta) ∧
      ∃ fields, fields.get field = some (writeI64Bytes (n + delta)) ∧
        (hashIncrBy field delta now entry).2 =
          some ⟨.hash fields, (entry.filter (Entry.live now)).bind Entry.expiresAt⟩ := by
  rcases reads with ⟨stored, isStored, fields, text, isHash, isFound, isText⟩ | ⟨absent, rfl⟩
  · have isCounted : hashIncrBy field delta now entry = (.ok (n + delta),
        some (stored.withValue (.hash (fields.insert field (writeI64Bytes (n + delta))).2))) := by
      unfold hashIncrBy updateAs live
      rw [isStored]
      dsimp only
      rw [isHash]
      dsimp only [Value.asHash]
      rw [isFound]
      dsimp only
      rw [isText]
      rfl
    rw [isCounted, isStored]
    exact ⟨rfl, _, HashStore.get_insert fields field _, rfl⟩
  · rw [Int64.zero_add]
    rcases absent with isNone | ⟨stored, other, fields, isStored, isField, isHash, isMissing⟩
    · have isCounted : hashIncrBy field delta now entry =
          (.ok delta, some ⟨.hash (.withSingle field (writeI64Bytes delta)), none⟩) := by
        unfold hashIncrBy updateAs live
        rw [isNone]
        rfl
      have isFound : (HashStore.withSingle field (writeI64Bytes delta)).get field =
          some (writeI64Bytes delta) := by
        simp [HashStore.withSingle, HashStore.get, HashStore.findField]
      rw [isCounted, isNone]
      exact ⟨rfl, _, isFound, rfl⟩
    · obtain rfl : field = other := Option.some.inj isField
      have isCounted : hashIncrBy field delta now entry = (.ok delta,
          some (stored.withValue (.hash (fields.insert field (writeI64Bytes delta)).2))) := by
        unfold hashIncrBy updateAs live
        rw [isStored]
        dsimp only
        rw [isHash]
        dsimp only [Value.asHash]
        rw [isMissing]
        dsimp only
        rw [Int64.zero_add]
        rfl
      rw [isCounted, isStored]
      exact ⟨rfl, _, HashStore.get_insert fields field _, rfl⟩

end Shard

/-! ## Exact counters -/

namespace Handler

variable {clock : ℕ → UInt64} {context : HandlerContext} {cmd : Command} {args : List Bytes}
  {state : HandlerState} {counter : Counter} {n total : Int64}

/-- A command that returns and stores a number counts exactly when the number
is the sum. -/
theorem countsExactly_iff_of_change
    {op : EntryOp} {logs : op.Result → Bool} {respond : op.Result → RespValue}
    (isChange : handleCommand context cmd args =
      change context cmd args counter.key op logs respond)
    (isReply : respond (op.apply (clock 0) (state.db.lookup counter.key)).1 = .integer total)
    {stored : Entry}
    (isLeft : (op.apply (clock 0) (state.db.lookup counter.key)).2 = some stored)
    (holds : counter.Holds stored total)
    (keepsExpiry : stored.expiresAt =
      (state.db.visible (clock 0) counter.key).bind Entry.expiresAt) :
    CountsExactly clock context cmd args state counter n ↔
      total.toInt = n.toInt + counter.change := by
  have run : _ ∧ _ := @runFrom_change clock context args cmd counter.key op logs respond state 0
  have repliesTotal : (execute clock (handleCommand context cmd args) state).1 =
      .integer total := by
    rw [isChange]
    exact run.1.trans isReply
  have leavesTotal : (execute clock (handleCommand context cmd args) state).2.1.db.lookup
      counter.key = some stored := by
    rw [isChange]
    refine (congrArg (Db.lookup · counter.key) run.2).trans ?_
    rw [Db.lookup_access, if_pos rfl, isLeft]
  constructor
  · rintro ⟨exact, rejects⟩
    by_contra notSum
    by_cases inRange : ∃ sum : Int64, sum.toInt = n.toInt + counter.change
    · obtain ⟨sum, isSum⟩ := inRange
      have sameReply := repliesTotal.symm.trans (exact sum isSum).1
      cases sameReply
      exact notSum isSum
    · have rejected := (rejects fun sum isSum => inRange ⟨sum, isSum⟩).1
      rw [repliesTotal] at rejected
      cases rejected
  · refine fun isTotal => ⟨fun sum isSum => ?_, fun outOfRange => absurd isTotal (outOfRange total)⟩
    obtain rfl : total = sum := Int64.toInt_inj.mp (isTotal.trans isSum.symm)
    exact ⟨repliesTotal, stored, leavesTotal, holds, keepsExpiry⟩

/-- The commands that count under a key. -/
theorem incr_countsExactly_iff
    {key : Bytes} {change : ℤ} {delta : Int64}
    (isIncr : handleCommand context cmd args = incr context cmd args key delta)
    (reads : Counter.Reads ⟨key, none, change⟩ (state.db.visible (clock 0) key) n) :
    CountsExactly clock context cmd args state ⟨key, none, change⟩ n ↔
      (saturatingAddI64 n delta).toInt = n.toInt + change := by
  have counted : EntryOp.apply (clock 0) (.incrBy delta) (state.db.lookup key) =
      (.ok (saturatingAddI64 n delta), some ⟨.int (saturatingAddI64 n delta),
        (state.db.visible (clock 0) key).bind Entry.expiresAt⟩) := Shard.incrBy_reads reads
  refine countsExactly_iff_of_change isIncr ?_ (congrArg Prod.snd counted) (.inl rfl) rfl
  exact congrArg (fun outcome => orError _ _ outcome.1) counted

/-- The command that counts in a field of a hash. -/
theorem hincrby_countsExactly_iff
    {key field : Bytes} {change : ℤ} {delta : Int64}
    (isHincrby : handleCommand context cmd args =
      Handler.change context cmd args key (.hashIncrBy field delta) isOk
        (orError (.error "ERR hash value is not an integer") .integer))
    (reads : Counter.Reads ⟨key, some field, change⟩ (state.db.visible (clock 0) key) n) :
    CountsExactly clock context cmd args state ⟨key, some field, change⟩ n ↔
      (n + delta).toInt = n.toInt + change := by
  have counted : (EntryOp.apply (clock 0) (.hashIncrBy field delta) (state.db.lookup key)).1 =
      .ok (n + delta) := (Shard.hashIncrBy_reads reads).1
  obtain ⟨fields, isFound, isLeft⟩ := (@Shard.hashIncrBy_reads key field change delta _ _ _ reads).2
  refine countsExactly_iff_of_change isHincrby ?_ isLeft
    ⟨fields, _, rfl, isFound, parseI64_writeI64Bytes _⟩ rfl
  exact congrArg (orError _ _) counted

end Handler

/-! ## When the sum is in range -/

theorem toInt_saturatingAddI64_iff (n delta : Int64) :
    (saturatingAddI64 n delta).toInt = n.toInt + delta.toInt ↔
      ∃ total : Int64, total.toInt = n.toInt + delta.toInt := by
  refine ⟨fun isTotal => ⟨_, isTotal⟩, fun ⟨total, isTotal⟩ => ?_⟩
  have atLeast := Int64.le_toInt total
  have lessThan := Int64.toInt_lt total
  rw [saturatingAddI64, min_eq_right (by omega), max_eq_right (by omega), ← isTotal,
    Int64.ofInt_toInt]

theorem toInt_add_iff (n delta : Int64) :
    (n + delta).toInt = n.toInt + delta.toInt ↔
      ∃ total : Int64, total.toInt = n.toInt + delta.toInt := by
  refine ⟨fun isTotal => ⟨_, isTotal⟩, fun ⟨total, isTotal⟩ => ?_⟩
  have atLeast := Int64.le_toInt total
  have lessThan := Int64.toInt_lt total
  rw [Int64.toInt_add, ← isTotal, Int.bmod_eq_of_le (by omega) (by omega)]

/-- Negation is exact but for the smallest number, whose negation it is. -/
theorem toInt_saturatingAddI64_neg_iff (n delta : Int64) :
    (saturatingAddI64 n (-delta)).toInt = n.toInt + -delta.toInt ↔
      (∃ total : Int64, total.toInt = n.toInt + -delta.toInt) ∧ -delta.toInt ≠ 2 ^ 63 := by
  by_cases isMin : delta = Int64.minValue
  · have isLeast : delta.toInt = -2 ^ 63 := by
      rw [isMin]
      decide
    have saturates : (saturatingAddI64 n (-delta)).toInt < n.toInt + 2 ^ 63 := by
      have atLeast := Int64.le_toInt n
      have lessThan := Int64.toInt_lt n
      have isSame : -delta = delta := by
        rw [isMin]
        decide
      rw [isSame, saturatingAddI64, Int64.toInt_ofInt_of_le (by omega) (by omega)]
      omega
    exact ⟨fun isTotal => by omega, fun inRange => absurd (by omega) inRange.2⟩
  · have notLeast : -delta.toInt ≠ 2 ^ 63 := by
      intro isLeast
      exact isMin (Int64.toInt_inj.mp (by rw [Int64.toInt_minValue]; omega))
    have isNegated : (-delta).toInt = -delta.toInt := by
      have atLeast := Int64.le_toInt delta
      have lessThan := Int64.toInt_lt delta
      rw [Int64.toInt_neg, Int.bmod_eq_of_le (by omega) (by omega)]
    rw [and_iff_left notLeast, ← isNegated]
    exact toInt_saturatingAddI64_iff n (-delta)

/-- A counter command counts exactly when the sum is an `i64` and it is not
`DECRBY` by the smallest number. -/
theorem countsExactly_iff
    (clock : ℕ → UInt64) (context : HandlerContext) {cmd : Command} {args : List Bytes}
    (state : HandlerState) {counter : Counter} (isCounter : cmd.counter args = some counter)
    {n : Int64} (reads : counter.Reads (state.db.visible (clock 0) counter.key) n) :
    CountsExactly clock context cmd args state counter n ↔
      (∃ total : Int64, total.toInt = n.toInt + counter.change) ∧
        ¬(cmd = .decrby ∧ counter.change = 2 ^ 63) := by
  cases cmd with
  | incr =>
      match args, isCounter with
      | key :: rest, rfl =>
        rw [@Handler.incr_countsExactly_iff clock context _ _ state n key 1 1 rfl reads]
        exact (toInt_saturatingAddI64_iff n 1).trans (and_iff_left nofun).symm
  | decr =>
      match args, isCounter with
      | key :: rest, rfl =>
        rw [@Handler.incr_countsExactly_iff clock context _ _ state n key (-1) (-1) rfl reads]
        exact (toInt_saturatingAddI64_iff n (-1)).trans (and_iff_left nofun).symm
  | incrby =>
      match args, isCounter with
      | key :: text :: rest, isCounter =>
        obtain ⟨delta, isDelta, rfl⟩ := Option.map_eq_some_iff.mp isCounter
        have isIncr : Handler.handleCommand context .incrby (key :: text :: rest) =
            Handler.incr context .incrby (key :: text :: rest) key delta :=
          congrArg (fun delta : Option Int64 => Handler.incr context .incrby
            (key :: text :: rest) key (delta.getD 0)) isDelta
        rw [Handler.incr_countsExactly_iff isIncr reads]
        exact (toInt_saturatingAddI64_iff n delta).trans (and_iff_left nofun).symm
  | decrby =>
      match args, isCounter with
      | key :: text :: rest, isCounter =>
        obtain ⟨delta, isDelta, rfl⟩ := Option.map_eq_some_iff.mp isCounter
        have isIncr : Handler.handleCommand context .decrby (key :: text :: rest) =
            Handler.incr context .decrby (key :: text :: rest) key (-delta) :=
          congrArg (fun delta : Option Int64 => Handler.incr context .decrby
            (key :: text :: rest) key (-delta.getD 0)) isDelta
        rw [Handler.incr_countsExactly_iff isIncr reads, toInt_saturatingAddI64_neg_iff]
        exact and_congr_right fun _ => not_congr (and_iff_right rfl).symm
  | hincrby =>
      match args, isCounter with
      | key :: field :: text :: rest, isCounter =>
        obtain ⟨delta, isDelta, rfl⟩ := Option.map_eq_some_iff.mp isCounter
        have isHincrby : Handler.handleCommand context .hincrby (key :: field :: text :: rest) =
            Handler.change context .hincrby (key :: field :: text :: rest) key
              (.hashIncrBy field delta) Handler.isOk
              (Handler.orError (.error "ERR hash value is not an integer") .integer) := by
          unfold Handler.handleCommand Handler.keyCmds Handler.stringCmds Handler.hashCmds
          dsimp only
          rw [isDelta]
          rfl
        rw [Handler.hincrby_countsExactly_iff isHincrby reads]
        exact (toInt_add_iff n delta).trans (and_iff_left nofun).symm
  | _ => cases isCounter

/-- A database in which a key holds 41. -/
def storedNumber : HandlerState :=
  ⟨Db.empty.put (asBytes "k") (some ⟨.int 41, none⟩), [], fun _ => none⟩

theorem reads_storedNumber :
    Counter.Reads ⟨asBytes "k", none, 5⟩ (storedNumber.db.visible 0 (asBytes "k")) 41 := by
  have isStored : storedNumber.db.visible 0 (asBytes "k") = some ⟨.int 41, none⟩ := by
    rw [Db.visible, storedNumber, Db.lookup_put, if_pos rfl]
    rfl
  exact .inl ⟨_, isStored, .inl rfl⟩

/-- `INCRBY k 5` counts from 41 to 46. -/
theorem countsExactly_iff_storedNumber :
    CountsExactly (fun _ => 0) ⟨none, false⟩ .incrby [asBytes "k", asBytes "5"] storedNumber
      ⟨asBytes "k", none, 5⟩ 41 :=
  (countsExactly_iff (fun _ => 0) ⟨none, false⟩ storedNumber rfl
    reads_storedNumber).mpr ⟨⟨46, by decide⟩, by rintro ⟨isDecrby, -⟩; cases isDecrby⟩

/-- `INCR` of the largest number. -/
theorem not_always_countsExactly :
    ¬∀ (clock : ℕ → UInt64) (context : HandlerContext) (cmd : Command) (args : List Bytes)
      (state : HandlerState) (counter : Counter) (n : Int64),
      cmd.counter args = some counter →
      counter.Reads (state.db.visible (clock 0) counter.key) n →
      CountsExactly clock context cmd args state counter n := by
  intro always
  let state : HandlerState :=
    ⟨Db.empty.put (asBytes "k") (some ⟨.int Int64.maxValue, none⟩), [], fun _ => none⟩
  have isStored : state.db.visible 0 (asBytes "k") = some ⟨.int Int64.maxValue, none⟩ := by
    rw [Db.visible, Db.lookup_put, if_pos rfl]
    rfl
  have reads : Counter.Reads ⟨asBytes "k", none, 1⟩ (state.db.visible 0 (asBytes "k"))
      Int64.maxValue := .inl ⟨_, isStored, .inl rfl⟩
  have counts := always (fun _ => 0) ⟨none, false⟩ .incr [asBytes "k"] state _ _ rfl reads
  have isSum := (@Handler.incr_countsExactly_iff (fun _ => 0) ⟨none, false⟩ .incr [asBytes "k"]
    state Int64.maxValue (asBytes "k") 1 1 rfl reads).mp counts
  exact absurd isSum (by decide)

end Cache
end MuonJs
