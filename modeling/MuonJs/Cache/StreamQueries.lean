import MuonJs.Cache.Errors
import MuonJs.Cache.Streams
import MuonJs.Cache.Truncation

/-!
# Queries of a stream against its history

A run of `XADD`, `XDEL` and `DEL` on a key is recorded with the entries added
since the key was last created and not deleted: the history, made from the
commands and their replies alone.  `XRANGE`, `XREVRANGE`, `XLEN` and `XDEL` are
compared with it.

`stream_range` and `stream_rev_range` know no other bounds than `-` and `+`,
reply to any other pair with nothing and to none with an error, and
`stream_add` may give out an ID that is still held.  `queries_exact_iff` says
which queries are answered as the history asks.
-/

namespace MuonJs
namespace Cache

/-! ## Texts and their bytes -/

theorem utf8EncodeChar_ascii {byte : UInt8} (ascii : byte.toNat < 128) :
    String.utf8EncodeChar (Char.ofNat byte.toNat) = [byte] := by
  have isChar : (Char.ofNat byte.toNat).val.toNat = byte.toNat := by
    have valid : byte.toNat.isValidChar := .inl (by omega)
    rw [Char.ofNat, dif_pos valid]
    rfl
  have single : String.utf8EncodeChar (Char.ofNat byte.toNat) =
      [UInt8.ofNat (Char.ofNat byte.toNat).val.toNat] := by
    rw [String.utf8EncodeChar]
    exact if_pos (by omega)
  rw [single, isChar, UInt8.ofNat_toNat]

/-- Bytes of the ASCII range are a text. -/
theorem fromUtf8_ascii {bytes : Bytes} (ascii : ∀ byte ∈ bytes, byte.toNat < 128) :
    ∃ text, fromUtf8 bytes = some text ∧ asBytes text = bytes := by
  have isBytes : asBytes (String.ofList (bytes.map fun byte => Char.ofNat byte.toNat)) = bytes := by
    rw [asBytes_eq_flatMap, String.toList_ofList, List.flatMap_map]
    induction bytes with
    | nil => rfl
    | cons byte rest ih =>
        rw [List.flatMap_cons, utf8EncodeChar_ascii (ascii byte List.mem_cons_self),
          ih fun other isOther => ascii other (List.mem_cons_of_mem _ isOther)]
        rfl
  refine ⟨_, ?_, isBytes⟩
  conv_lhs => rw [← isBytes]
  exact fromUtf8_asBytes _

/-! ## IDs and bounds -/

/-- The two numbers of an ID `n-m`. -/
def idNumbers (id : Bytes) : Option (ℕ × ℕ) :=
  match id.dropWhile isAsciiDigit with
  | 45 :: rest =>
      (digitsValue (id.takeWhile isAsciiDigit)).bind fun n =>
        (digitsValue rest).map fun m => (n, m)
  | _ => none

/-- A bound of a range: one of the extremes, a number, or an ID. -/
inductive Bound
  | lowest
  | highest
  | number (n : ℕ)
  | exact (n m : ℕ)
  deriving DecidableEq

namespace Bound

/-- The bound that a text of the form `-`, `+`, `n` or `n-m` stands for. -/
def parse (text : Bytes) : Option Bound :=
  if text = asBytes "-" then some lowest
  else if text = asBytes "+" then some highest
  else
    match idNumbers text with
    | some (n, m) => some (exact n m)
    | none => (digitsValue text).map number

/-- The ID is not below the bound. -/
def admitsFrom : Bound → ℕ × ℕ → Bool
  | lowest, _ => true
  | highest, _ => false
  | number n, id => n ≤ id.1
  | exact n m, id => n < id.1 || n = id.1 && m ≤ id.2

/-- The ID is not above the bound; a number stands for its largest ID. -/
def admitsTo : Bound → ℕ × ℕ → Bool
  | lowest, id => id = (0, 0)
  | highest, _ => true
  | number n, id => id.1 ≤ n
  | exact n m, id => id.1 < n || id.1 = n && id.2 ≤ m

end Bound

/-- An entry as replies show it: the bytes of its ID, and its fields. -/
abbrev ShownEntry := Bytes × List (Bytes × Bytes)

/-- The ID of the entry lies between the bounds. -/
def between (lower upper : Bound) (entry : ShownEntry) : Bool :=
  match idNumbers entry.1 with
  | some numbers => lower.admitsFrom numbers && upper.admitsTo numbers
  | none => false

/-- One ID is below another. -/
def IdLess (left right : Bytes) : Prop :=
  ∃ lower upper : ℕ × ℕ, idNumbers left = some lower ∧ idNumbers right = some upper ∧
    (lower.1 < upper.1 ∨ lower.1 = upper.1 ∧ lower.2 < upper.2)

/-- The IDs increase along the list. -/
def Increasing (entries : List ShownEntry) : Prop :=
  entries.Pairwise fun left right => IdLess left.1 right.1

theorem digitsValue_eq_some_iff (digits : Bytes) (value : ℕ) :
    digitsValue digits = some value ↔ digits ≠ [] ∧ digitsFrom 0 digits = some value := by
  cases digits with
  | nil => exact iff_of_false (fun none_ => by cases none_) fun nonempty => nonempty.1 rfl
  | cons digit rest => exact ⟨fun isValue => ⟨List.cons_ne_nil _ _, isValue⟩, fun both => both.2⟩

theorem ascii_of_digitsFrom {value total : ℕ} {digits : Bytes}
    (isTotal : digitsFrom value digits = some total) :
    ∀ digit ∈ digits, isAsciiDigit digit = true := by
  induction digits generalizing value with
  | nil => exact fun digit isDigit => absurd isDigit List.not_mem_nil
  | cons byte rest ih =>
      obtain ⟨isDigit, isRest⟩ := isAsciiDigit_of_digitsFrom isTotal
      intro digit listed
      rcases List.mem_cons.mp listed with rfl | listed
      · exact isDigit
      · exact ih isRest digit listed

theorem toNat_lt_of_isAsciiDigit {byte : UInt8} (isDigit : isAsciiDigit byte = true) :
    byte.toNat < 128 := by
  rw [isAsciiDigit, Bool.and_eq_true, decide_eq_true_eq, decide_eq_true_eq] at isDigit
  exact (UInt8.le_iff_toNat_le.mp isDigit.2).trans_lt (by decide)

theorem idNumbers_eq_some {id : Bytes} {numbers : ℕ × ℕ}
    (isId : idNumbers id = some numbers) :
    ∃ first second, id = first ++ 45 :: second ∧ digitsValue first = some numbers.1 ∧
      digitsValue second = some numbers.2 := by
  unfold idNumbers at isId
  split at isId
  case h_1 rest isRest =>
      rw [Option.bind_eq_some_iff] at isId
      obtain ⟨n, isFirst, isId⟩ := isId
      rw [Option.map_eq_some_iff] at isId
      obtain ⟨m, isSecond, rfl⟩ := isId
      refine ⟨id.takeWhile isAsciiDigit, rest, ?_, isFirst, isSecond⟩
      rw [← isRest, List.takeWhile_append_dropWhile]
  case h_2 => cases isId

theorem ascii_of_digitsValue {digits : Bytes} {value : ℕ}
    (isValue : digitsValue digits = some value) : ∀ byte ∈ digits, byte.toNat < 128 :=
  fun byte listed => toNat_lt_of_isAsciiDigit
    (ascii_of_digitsFrom ((digitsValue_eq_some_iff digits value).mp isValue).2 byte listed)

/-- The text of a bound is ASCII. -/
theorem Bound.parse_ascii {text : Bytes} {bound : Bound}
    (parsed : parse text = some bound) : ∀ byte ∈ text, byte.toNat < 128 := by
  unfold parse at parsed
  split at parsed
  · rename_i isDash
    rw [isDash, show asBytes "-" = [45] from rfl]
    exact List.forall_mem_singleton.mpr (by decide)
  split at parsed
  · rename_i isPlus
    rw [isPlus, show asBytes "+" = [43] from rfl]
    exact List.forall_mem_singleton.mpr (by decide)
  split at parsed
  · rename_i n m isId
    obtain ⟨first, second, rfl, isFirst, isSecond⟩ := idNumbers_eq_some isId
    intro byte listed
    rcases List.mem_append.mp listed with inFirst | inRest
    · exact ascii_of_digitsValue isFirst byte inFirst
    · rcases List.mem_cons.mp inRest with rfl | inSecond
      · decide
      · exact ascii_of_digitsValue isSecond byte inSecond
  · rw [Option.map_eq_some_iff] at parsed
    obtain ⟨value, isValue, -⟩ := parsed
    exact ascii_of_digitsValue isValue

/-- A bound decodes to its own text. -/
theorem Bound.decoded {text : Bytes} {bound : Bound} (parsed : parse text = some bound)
    (default symbol : String) :
    (fromUtf8 text).getD default = symbol ↔ text = asBytes symbol := by
  obtain ⟨decoded, isDecoded, isText⟩ := fromUtf8_ascii (parse_ascii parsed)
  rw [isDecoded, Option.getD_some, ← isText]
  exact ⟨fun same => by rw [same], fun same => asBytes_injective same⟩

theorem asBytes_streamId (number : ℕ) :
    asBytes (streamId number) = natBytes number ++ [45, 48] := by
  rw [← asBytes_toString, asBytes_eq_flatMap, asBytes_eq_flatMap, streamId,
    String.toList_append, List.flatMap_append]
  rfl

theorem idNumbers_streamId (number : ℕ) :
    idNumbers (asBytes (streamId number)) = some (number, 0) := by
  obtain ⟨digit, rest, isText, -, isValue⟩ := natBytes_spec number
  have areDigits : ∀ byte ∈ natBytes number, isAsciiDigit byte = true := by
    rw [isText]
    exact ascii_of_digitsFrom isValue
  have dash : [(45 : UInt8), 48].dropWhile isAsciiDigit = 45 :: [48] := by decide
  have noDigits : [(45 : UInt8), 48].takeWhile isAsciiDigit = [] := by decide
  have isNumber : digitsValue (natBytes number) = some number := by
    rw [isText]
    exact isValue
  rw [idNumbers, asBytes_streamId, List.dropWhile_append_of_pos areDigits,
    List.takeWhile_append_of_pos areDigits, dash, noDigits, List.append_nil, isNumber]
  rfl

/-! ## Runs and their history -/

/-- The arguments of field-value pairs. -/
def pairArgs (pairs : List (Bytes × Bytes)) : List Bytes :=
  pairs.flatMap fun (field, value) => [field, value]

/-- A reply of `XRANGE` or `XREVRANGE`. -/
def rangeReply (entries : List ShownEntry) : RespValue :=
  .array (entries.map fun (id, fields) => .array [.blob id, .blobs (pairArgs fields)])

/-- A command of a run on a stream. -/
inductive StreamEvent
  | xadd (first : Bytes × Bytes) (rest : List (Bytes × Bytes))
  | xdel (id : Bytes) (ids : List Bytes)
  | del

/-- The command of an event with its arguments. -/
def StreamEvent.request (key : Bytes) : StreamEvent → Command × List Bytes
  | .xadd first rest => (.xadd, key :: asBytes "*" :: pairArgs (first :: rest))
  | .xdel id ids => (.xdel, key :: id :: ids)
  | .del => (.del, [key])

/-- The history after an event and its reply: `XADD` adds an entry under the ID
it returns, `XDEL` deletes the entries with the IDs it names, `DEL` all. -/
def remember (kept : List ShownEntry) : StreamEvent → RespValue → List ShownEntry
  | .xadd first rest, .blob id => kept ++ [(id, first :: rest)]
  | .xadd _ _, _ => kept
  | .xdel id ids, _ => kept.filter fun entry => !(id :: ids).contains entry.1
  | .del, _ => []

/-- A state in a run, with the history that led to it. -/
structure Recorded where
  state : HandlerState
  tick : ℕ
  kept : List ShownEntry

namespace Recorded

/-- Run the command of an event and remember it. -/
def step (clock : ℕ → UInt64) (context : HandlerContext) (key : Bytes)
    (record : Recorded) (event : StreamEvent) : Recorded :=
  let request := event.request key
  let outcome := Handler.runFrom clock (Handler.handleCommand context request.1 request.2)
    record.state record.tick
  ⟨outcome.2.1, outcome.2.2, remember record.kept event outcome.1⟩

/-- Run the commands of a run. -/
def run (clock : ℕ → UInt64) (context : HandlerContext) (key : Bytes)
    (record : Recorded) (events : List StreamEvent) : Recorded :=
  events.foldl (step clock context key) record

end Recorded

/-- An entry as replies show it. -/
def shown (entry : StreamEntry) : ShownEntry := (asBytes entry.1, entry.2)

theorem streamReply_eq (items : List StreamEntry) :
    Handler.streamReply items = rangeReply (items.map shown) := by
  rw [Handler.streamReply, rangeReply, List.map_map]
  rfl

/-- What the key holds agrees with the history: nothing, or a stream of the
entries in the history, without an expiry and with IDs made from numbers. -/
def Tracks (key : Bytes) (record : Recorded) : Prop :=
  record.state.db.lookup key = none ∧ record.kept = [] ∨
    ∃ items, record.state.db.lookup key = some ⟨.stream items, none⟩ ∧
      record.kept = items.map shown ∧ ∀ item ∈ items, ∃ number, item.1 = streamId number

namespace Handler

variable {clock : ℕ → UInt64} {context : HandlerContext} {state : HandlerState}

theorem fieldPairs_pairArgs (pairs : List (Bytes × Bytes)) :
    fieldPairs (pairArgs pairs) = pairs := by
  induction pairs with
  | nil => rfl
  | cons pair pairs ih =>
      change (pair.1, pair.2) :: fieldPairs (pairArgs pairs) = _
      rw [ih]

theorem length_pairArgs (pairs : List (Bytes × Bytes)) :
    (pairArgs pairs).length = 2 * pairs.length := by
  induction pairs with
  | nil => rfl
  | cons pair pairs ih =>
      change (pairArgs pairs).length + 1 + 1 = _
      rw [ih, List.length_cons]
      omega

/-- `XADD` of the automatic ID. -/
theorem handleCommand_xadd (key : Bytes) (first : Bytes × Bytes) (rest : List (Bytes × Bytes)) :
    handleCommand context .xadd (key :: asBytes "*" :: pairArgs (first :: rest)) =
      change context .xadd (key :: asBytes "*" :: pairArgs (first :: rest)) key
        (.streamAdd "*" (first :: rest)) isOk
        (orError (.error "ERR invalid stream ID") fun id => .blob (asBytes id)) := by
  have isLength : (key :: asBytes "*" :: pairArgs (first :: rest)).length =
      2 + 2 * (rest.length + 1) := by
    rw [List.length_cons, List.length_cons, length_pairArgs, List.length_cons]
    omega
  have enough : ¬((key :: asBytes "*" :: pairArgs (first :: rest)).length < 4 ∨
      (key :: asBytes "*" :: pairArgs (first :: rest)).length % 2 ≠ 0) := by
    rw [isLength]
    omega
  have handler : handleCommand context .xadd (key :: asBytes "*" :: pairArgs (first :: rest)) =
      if (key :: asBytes "*" :: pairArgs (first :: rest)).length < 4 ∨
          (key :: asBytes "*" :: pairArgs (first :: rest)).length % 2 ≠ 0 then
        return .wrongArguments "XADD"
      else (fromUtf8 (asBytes "*")).elim (return .error "ERR invalid stream ID") fun id =>
        change context .xadd (key :: asBytes "*" :: pairArgs (first :: rest)) key
          (.streamAdd id (fieldPairs (pairArgs (first :: rest)))) isOk
          (orError (.error "ERR invalid stream ID") fun id => .blob (asBytes id)) := rfl
  rw [handler, if_neg enough, fromUtf8_asBytes, Option.elim_some, fieldPairs_pairArgs]

theorem handleCommand_xdel (key id : Bytes) (ids : List Bytes) :
    handleCommand context .xdel (key :: id :: ids) =
      change context .xdel (key :: id :: ids) key
        (.streamDel ((id :: ids).filterMap fromUtf8)) isOk (orWrongType .integer) := rfl

/-- `DEL` of one key leaves nothing under it. -/
theorem lookup_del (key : Bytes) (tick : ℕ) :
    (runFrom clock (handleCommand context .del [key]) state tick).2.1.db.lookup key = none := by
  have handler : handleCommand context .del [key] = (do
      let removed ← countLoop 0 .remove id [key]
      logCmd context .del [key]
      return .integer removed) := rfl
  have left : (runFrom clock (handleCommand context .del [key]) state tick).2.1.db =
      (state.db.access key Shard.remove).2 := by
    rw [handler, runFrom_bind, runFrom_bind]
    exact runFrom_logCmd_db context .del [key] _ _
  rw [left, Db.lookup_access, if_pos rfl]
  rfl

end Handler

/-! ## The run keeps the history -/

theorem mem_filterMap_fromUtf8 (ids : List Bytes) (text : String) :
    text ∈ ids.filterMap fromUtf8 ↔ asBytes text ∈ ids := by
  rw [List.mem_filterMap]
  constructor
  · rintro ⟨id, listed, decoded⟩
    rw [asBytes_of_fromUtf8 decoded]
    exact listed
  · exact fun listed => ⟨asBytes text, listed, fromUtf8_asBytes text⟩

/-- The entries that `stream_del` keeps, as replies show them. -/
theorem map_shown_filter (items : List StreamEntry) (ids : List Bytes) :
    (items.filter fun item => !(ids.filterMap fromUtf8).contains item.1).map shown =
      (items.map shown).filter fun entry => !ids.contains entry.1 := by
  rw [List.filter_map]
  congr 1
  refine List.filter_congr fun item _ => ?_
  have named := mem_filterMap_fromUtf8 ids item.1
  rw [← List.contains_iff_mem, ← List.contains_iff_mem] at named
  rw [Function.comp_apply, Bool.not_inj_iff, Bool.eq_iff_iff]
  exact named

namespace Shard

theorem streamAdd_absent (fields : List (Bytes × Bytes)) (now : UInt64) :
    streamAdd "*" fields now none =
      (.ok (streamId 1), some ⟨.stream [(streamId 1, fields)], none⟩) := by
  rw [streamAdd, if_pos rfl, updateAs_of_absent rfl]
  rfl

theorem streamAdd_stream
    (fields : List (Bytes × Bytes)) (now : UInt64) (items : List StreamEntry) :
    streamAdd "*" fields now (some ⟨.stream items, none⟩) =
      (.ok (streamId (items.length + 1)),
        some ⟨.stream (items ++ [(streamId (items.length + 1), fields)]), none⟩) := by
  have isKind : Value.asStream (.stream items) = some items := rfl
  rw [streamAdd, if_pos rfl, updateAs_of_live rfl isKind]
  rfl

theorem streamDel_stream (ids : List String) (now : UInt64) (items : List StreamEntry) :
    streamDel ids now (some ⟨.stream items, none⟩) =
      (.ok (Int64.ofNat (items.length -
          (items.filter fun item => !ids.contains item.1).length)),
        some ⟨.stream (items.filter fun item => !ids.contains item.1), none⟩) := by
  have isKind : Value.asStream (.stream items) = some items := rfl
  rw [streamDel, updateAs_of_live rfl isKind]
  rfl

end Shard

namespace Tracks

variable {clock : ℕ → UInt64} {context : HandlerContext} {key : Bytes} {record : Recorded}

/-- `XADD` replies with the ID made from the number of entries. -/
theorem reply_xadd
    (tracks : Tracks key record) (first : Bytes × Bytes) (rest : List (Bytes × Bytes)) :
    (Handler.runFrom clock (Handler.handleCommand context .xadd
        (key :: asBytes "*" :: pairArgs (first :: rest))) record.state record.tick).1 =
      .blob (asBytes (streamId (record.kept.length + 1))) := by
  rw [Handler.handleCommand_xadd, (Handler.runFrom_change record.state record.tick).1,
    EntryOp.apply]
  rcases tracks with ⟨absent, nothing⟩ | ⟨items, isStream, isKept, -⟩
  · rw [absent, Shard.streamAdd_absent, nothing]
    rfl
  · rw [isStream, Shard.streamAdd_stream, isKept, List.length_map]
    rfl

theorem kept_xadd
    (tracks : Tracks key record) (first : Bytes × Bytes) (rest : List (Bytes × Bytes)) :
    (record.step clock context key (.xadd first rest)).kept =
      record.kept ++ [(asBytes (streamId (record.kept.length + 1)), first :: rest)] := by
  unfold Recorded.step StreamEvent.request
  dsimp only
  rw [tracks.reply_xadd]
  rfl

theorem xadd
    (tracks : Tracks key record) (first : Bytes × Bytes) (rest : List (Bytes × Bytes)) :
    Tracks key (record.step clock context key (.xadd first rest)) := by
  have isKept := @kept_xadd clock context key record tracks first rest
  have isDb : (record.step clock context key (.xadd first rest)).state.db.lookup key =
      (Shard.streamAdd "*" (first :: rest) (clock record.tick)
        (record.state.db.lookup key)).2 := by
    unfold Recorded.step StreamEvent.request
    dsimp only
    rw [Handler.handleCommand_xadd, (Handler.runFrom_change record.state record.tick).2,
      Db.lookup_access, if_pos rfl]
    rfl
  refine .inr ?_
  rw [isDb, isKept]
  rcases tracks with ⟨absent, nothing⟩ | ⟨items, isStream, isItems, numbered⟩
  · rw [absent, Shard.streamAdd_absent, nothing]
    refine ⟨[(streamId 1, first :: rest)], rfl, rfl, fun item listed => ⟨1, ?_⟩⟩
    rw [List.mem_singleton.mp listed]
  · rw [isStream, Shard.streamAdd_stream, isItems, List.length_map]
    refine ⟨_, rfl, ?_, fun item listed => ?_⟩
    · rw [List.map_append]
      rfl
    · rcases List.mem_append.mp listed with old | isNew
      · exact numbered item old
      · exact ⟨items.length + 1, by rw [List.mem_singleton.mp isNew]⟩

theorem xdel (tracks : Tracks key record) (id : Bytes) (ids : List Bytes) :
    Tracks key (record.step clock context key (.xdel id ids)) := by
  obtain ⟨isReply, isDb⟩ := @Handler.runFrom_change clock context (key :: id :: ids) .xdel key
    (.streamDel ((id :: ids).filterMap fromUtf8)) Handler.isOk
    (Handler.orWrongType .integer) record.state record.tick
  rw [← Handler.handleCommand_xdel, EntryOp.apply] at isReply isDb
  unfold Recorded.step StreamEvent.request
  dsimp only
  unfold Tracks
  dsimp only
  rw [isDb, Db.lookup_access, if_pos rfl]
  rcases tracks with ⟨absent, nothing⟩ | ⟨items, isStream, isKept, numbered⟩
  · refine .inl ?_
    rw [absent, nothing]
    exact ⟨rfl, rfl⟩
  · refine .inr ⟨items.filter fun item => !((id :: ids).filterMap fromUtf8).contains item.1,
      ?_, ?_, fun item listed => numbered item (List.mem_filter.mp listed).1⟩
    · rw [isStream, Shard.streamDel_stream]
    · rw [map_shown_filter, isKept]
      rfl

/-- One command keeps what the key holds in agreement with the history. -/
theorem step (tracks : Tracks key record) (event : StreamEvent) :
    Tracks key (record.step clock context key event) := by
  cases event with
  | xadd first rest => exact tracks.xadd first rest
  | xdel id ids => exact tracks.xdel id ids
  | del => exact .inl ⟨Handler.lookup_del key record.tick, rfl⟩

/-- So does a run. -/
theorem run (tracks : Tracks key record) (events : List StreamEvent) :
    Tracks key (record.run clock context key events) := by
  induction events generalizing record with
  | nil => exact tracks
  | cons event events ih => exact ih (tracks.step event)

theorem numbered (tracks : Tracks key record) {entry : ShownEntry}
    (listed : entry ∈ record.kept) : ∃ number, idNumbers entry.1 = some (number, 0) := by
  rcases tracks with ⟨-, nothing⟩ | ⟨items, -, isKept, numbered⟩
  · rw [nothing] at listed
    cases listed
  · rw [isKept, List.mem_map] at listed
    obtain ⟨item, isItem, rfl⟩ := listed
    obtain ⟨number, isId⟩ := numbered item isItem
    refine ⟨number, ?_⟩
    rw [shown, isId, idNumbers_streamId]

end Tracks

/-! ## Queries -/

/-- A query of a stream. -/
inductive StreamQuery
  | xrange (first last : Bytes)
  | xrevrange (last first : Bytes)
  | xlen
  | xdel (id : Bytes) (ids : List Bytes)

/-- The command of a query with its arguments. -/
def StreamQuery.request (key : Bytes) : StreamQuery → Command × List Bytes
  | .xrange first last => (.xrange, [key, first, last])
  | .xrevrange last first => (.xrevrange, [key, last, first])
  | .xlen => (.xlen, [key])
  | .xdel id ids => (.xdel, key :: id :: ids)

/-- The entries of the history between two bounds, in increasing order. -/
def IsRange (kept : List ShownEntry) (lower upper : Bound) (entries : List ShownEntry) : Prop :=
  entries.Perm (kept.filter (between lower upper)) ∧ Increasing entries

/-- The reply gives the range between two bounds, in an arrangement of its
entries; a text that is no bound is answered with an error. -/
def RangeExact (arrange : List ShownEntry → List ShownEntry) (kept : List ShownEntry)
    (first last : Bytes) (reply : RespValue) : Prop :=
  match Bound.parse first, Bound.parse last with
  | some lower, some upper =>
      ∃ entries, IsRange kept lower upper entries ∧ reply = rangeReply (arrange entries)
  | _, _ => reply.isError = true

/-- For each of the distinct IDs named that exist, one entry is removed, and
their number is the reply. -/
structure RemovesOneEach
    (ids : List Bytes) (before after : List ShownEntry) (reply : RespValue) : Prop where
  part : after.Sublist before
  counts : ∀ id, (after.map Prod.fst).count id =
    (before.map Prod.fst).count id - if id ∈ ids then 1 else 0
  total : reply = .integer (Int64.ofNat
    (ids.dedup.filter fun id => (before.map Prod.fst).contains id).length)

/-- The entries stored under the key, as replies show them. -/
def shownAt (state : HandlerState) (key : Bytes) : List ShownEntry :=
  ((streamOf (state.db.lookup key)).getD []).map shown

/-- What a state replies to a query. -/
def replyTo (clock : ℕ → UInt64) (context : HandlerContext) (key : Bytes)
    (record : Recorded) (query : StreamQuery) : RespValue :=
  (Handler.runFrom clock (Handler.handleCommand context (query.request key).1
    (query.request key).2) record.state record.tick).1

/-- The query is answered as the history asks. -/
def QueryExact (clock : ℕ → UInt64) (context : HandlerContext) (key : Bytes)
    (record : Recorded) : StreamQuery → Prop
  | .xrange first last =>
      RangeExact id record.kept first last
        (replyTo clock context key record (.xrange first last))
  | .xrevrange last first =>
      RangeExact List.reverse record.kept first last
        (replyTo clock context key record (.xrevrange last first))
  | .xlen => ∃ entries,
      replyTo clock context key record (.xrange (asBytes "-") (asBytes "+")) =
        rangeReply entries ∧
      replyTo clock context key record .xlen = .integer (Int64.ofNat entries.length)
  | .xdel id ids =>
      RemovesOneEach (id :: ids) record.kept
        (shownAt (record.step clock context key (.xdel id ids)).state key)
        (replyTo clock context key record (.xdel id ids))

/-- The bounds are `-` and `+` and the IDs in the history increase, or the bounds
are bounds and nothing lies between them. -/
def RangeFine (kept : List ShownEntry) (first last : Bytes) : Prop :=
  ∃ lower upper, Bound.parse first = some lower ∧ Bound.parse last = some upper ∧
    (first = asBytes "-" ∧ last = asBytes "+" ∧ Increasing kept ∨
      ∀ entry ∈ kept, between lower upper entry = false)

/-- When a query is answered as the history asks. -/
def QueryFine (kept : List ShownEntry) : StreamQuery → Prop
  | .xrange first last => RangeFine kept first last
  | .xrevrange last first => RangeFine kept first last
  | .xlen => True
  | .xdel id ids => ((kept.map Prod.fst).filter fun held => (id :: ids).contains held).Nodup

theorem pairArgs_injective : Function.Injective pairArgs := by
  intro left right same
  rw [← Handler.fieldPairs_pairArgs left, same, Handler.fieldPairs_pairArgs]

theorem rangeReply_injective : Function.Injective rangeReply := by
  intro left right same
  refine List.map_injective_iff.mpr ?_ (RespValue.array.inj same)
  rintro ⟨id, fields⟩ ⟨otherId, otherFields⟩ sameEntry
  have parts := RespValue.array.inj sameEntry
  rw [List.cons.injEq, List.cons.injEq] at parts
  obtain ⟨sameId, sameFields, -⟩ := parts
  have sameArgs := List.map_injective_iff.mpr
    (fun _ _ sameBlob => RespValue.blob.inj sameBlob) (RespValue.array.inj sameFields)
  rw [RespValue.blob.inj sameId, pairArgs_injective sameArgs]

section

variable {arrange : List ShownEntry → List ShownEntry} {kept : List ShownEntry}

/-- A reply of all entries is exact when their IDs increase. -/
theorem rangeExact_all_iff
    (injective : Function.Injective arrange)
    (numbered : ∀ entry ∈ kept, ∃ number, idNumbers entry.1 = some (number, 0)) :
    RangeExact arrange kept (asBytes "-") (asBytes "+") (rangeReply (arrange kept)) ↔
      Increasing kept := by
  have all : kept.filter (between .lowest .highest) = kept := by
    rw [List.filter_eq_self]
    intro entry listed
    obtain ⟨number, isId⟩ := numbered entry listed
    rw [between, isId]
    rfl
  change (∃ entries, IsRange kept .lowest .highest entries ∧
    rangeReply (arrange kept) = rangeReply (arrange entries)) ↔ _
  unfold IsRange
  rw [all]
  constructor
  · rintro ⟨entries, ⟨-, increasing⟩, same⟩
    rwa [injective (rangeReply_injective same)]
  · exact fun increasing => ⟨kept, ⟨.refl kept, increasing⟩, rfl⟩

/-- A reply of no entries is exact when no entry lies between the bounds. -/
theorem rangeExact_none_iff
    (injective : Function.Injective arrange) (empty : arrange [] = [])
    {first last : Bytes} {lower upper : Bound}
    (isLower : Bound.parse first = some lower) (isUpper : Bound.parse last = some upper) :
    RangeExact arrange kept first last (rangeReply []) ↔
      ∀ entry ∈ kept, between lower upper entry = false := by
  have nothing : (∀ entry ∈ kept, between lower upper entry = false) ↔
      kept.filter (between lower upper) = [] := by
    rw [List.filter_eq_nil_iff]
    simp only [Bool.not_eq_true]
  rw [RangeExact, isLower, isUpper, nothing]
  constructor
  · rintro ⟨entries, ⟨perm, -⟩, same⟩
    have isEmpty : arrange [] = arrange entries := by
      rw [empty]
      exact rangeReply_injective same
    rw [← injective isEmpty] at perm
    exact perm.symm.eq_nil
  · intro none_
    refine ⟨[], ⟨?_, List.Pairwise.nil⟩, by rw [empty]⟩
    rw [none_]

/-- A reply of all entries for the bounds `-` and `+`, and of none for others, is
exact when the condition holds. -/
theorem rangeExact_iff
    (injective : Function.Injective arrange) (empty : arrange [] = [])
    (numbered : ∀ entry ∈ kept, ∃ number, idNumbers entry.1 = some (number, 0))
    (first last : Bytes) :
    RangeExact arrange kept first last (rangeReply
        (if (fromUtf8 first).getD "-" = "-" ∧ (fromUtf8 last).getD "+" = "+" then arrange kept
          else [])) ↔
      RangeFine kept first last := by
  cases isLower : Bound.parse first with
  | none =>
      rw [RangeExact, isLower]
      refine iff_of_false Bool.false_ne_true ?_
      rintro ⟨lower, upper, parsed, -⟩
      rw [isLower] at parsed
      cases parsed
  | some lower =>
      cases isUpper : Bound.parse last with
      | none =>
          rw [RangeExact, isLower, isUpper]
          refine iff_of_false Bool.false_ne_true ?_
          rintro ⟨lower, upper, -, parsed, -⟩
          rw [isUpper] at parsed
          cases parsed
      | some upper =>
          have fine : RangeFine kept first last ↔
              first = asBytes "-" ∧ last = asBytes "+" ∧ Increasing kept ∨
                ∀ entry ∈ kept, between lower upper entry = false := by
            unfold RangeFine
            rw [isLower, isUpper]
            constructor
            · rintro ⟨_, _, sameLower, sameUpper, cases_⟩
              cases sameLower
              cases sameUpper
              exact cases_
            · exact fun cases_ => ⟨lower, upper, rfl, rfl, cases_⟩
          have decoded := and_congr (Bound.decoded isLower "-" "-")
            (Bound.decoded isUpper "+" "+")
          rw [fine]
          by_cases full : first = asBytes "-" ∧ last = asBytes "+"
          · rw [if_pos (decoded.mpr full)]
            obtain ⟨rfl, rfl⟩ := full
            rw [rangeExact_all_iff injective numbered]
            constructor
            · exact fun increasing => .inl ⟨rfl, rfl, increasing⟩
            · rintro (⟨-, -, increasing⟩ | none_)
              · exact increasing
              · cases isLower
                cases isUpper
                have isEmpty : kept = [] := by
                  refine List.eq_nil_iff_forall_not_mem.mpr fun entry listed => ?_
                  obtain ⟨number, isId⟩ := numbered entry listed
                  have outside := none_ entry listed
                  rw [between, isId] at outside
                  cases outside
                rw [isEmpty]
                exact List.Pairwise.nil
          · rw [if_neg (mt decoded.mp full), rangeExact_none_iff injective empty isLower isUpper]
            constructor
            · exact .inr
            · rintro (⟨isFirst, isLast, -⟩ | none_)
              · exact absurd ⟨isFirst, isLast⟩ full
              · exact none_

end

section

variable {clock : ℕ → UInt64} {context : HandlerContext} {key : Bytes} {record : Recorded}

theorem replyTo_xrange (tracks : Tracks key record) (first last : Bytes) :
    replyTo clock context key record (.xrange first last) = rangeReply
      (if (fromUtf8 first).getD "-" = "-" ∧ (fromUtf8 last).getD "+" = "+" then record.kept
        else []) := by
  have isReply : replyTo clock context key record (.xrange first last) =
      Handler.orWrongType Handler.streamReply
        (Shard.streamRange ((fromUtf8 first).getD "-") ((fromUtf8 last).getD "+")
          (clock record.tick) (record.state.db.lookup key)).1 := rfl
  rw [isReply, Shard.streamRange]
  rcases tracks with ⟨absent, nothing⟩ | ⟨items, isStream, isKept, -⟩
  · rw [absent, Shard.readAs_of_absent rfl, nothing, ite_self]
    rfl
  · have isKind : Value.asStream (.stream items) = some items := rfl
    rw [isStream, Shard.readAs_of_live rfl isKind, isKept]
    split
    · exact streamReply_eq items
    · rfl

theorem replyTo_xrevrange (tracks : Tracks key record) (last first : Bytes) :
    replyTo clock context key record (.xrevrange last first) = rangeReply
      (if (fromUtf8 first).getD "-" = "-" ∧ (fromUtf8 last).getD "+" = "+"
        then record.kept.reverse else []) := by
  have isReply : replyTo clock context key record (.xrevrange last first) =
      Handler.orWrongType Handler.streamReply
        (Shard.streamRevRange ((fromUtf8 last).getD "+") ((fromUtf8 first).getD "-")
          (clock record.tick) (record.state.db.lookup key)).1 := rfl
  rw [isReply, Shard.streamRevRange]
  rcases tracks with ⟨absent, nothing⟩ | ⟨items, isStream, isKept, -⟩
  · rw [absent, Shard.readAs_of_absent rfl, nothing, List.reverse_nil, ite_self]
    rfl
  · have isKind : Value.asStream (.stream items) = some items := rfl
    rw [isStream, Shard.readAs_of_live rfl isKind, isKept, ← List.map_reverse]
    by_cases full : (fromUtf8 first).getD "-" = "-" ∧ (fromUtf8 last).getD "+" = "+"
    · rw [if_pos full]
      dsimp only
      rw [if_pos full.symm]
      exact streamReply_eq items.reverse
    · rw [if_neg full]
      dsimp only
      rw [if_neg fun both => full both.symm]
      rfl

theorem replyTo_xlen (tracks : Tracks key record) :
    replyTo clock context key record .xlen = .integer (Int64.ofNat record.kept.length) := by
  have isReply : replyTo clock context key record .xlen =
      Handler.orWrongType .integer
        (Shard.streamLen (clock record.tick) (record.state.db.lookup key)).1 := rfl
  rw [isReply, Shard.streamLen]
  rcases tracks with ⟨absent, nothing⟩ | ⟨items, isStream, isKept, -⟩
  · rw [absent, Shard.readAs_of_absent rfl, nothing]
    rfl
  · have isKind : Value.asStream (.stream items) = some items := rfl
    rw [isStream, Shard.readAs_of_live rfl isKind, isKept, List.length_map]
    rfl

theorem replyTo_xdel (tracks : Tracks key record) (id : Bytes) (ids : List Bytes) :
    replyTo clock context key record (.xdel id ids) = .integer (Int64.ofNat
      (record.kept.length -
        (record.kept.filter fun entry => !(id :: ids).contains entry.1).length)) := by
  unfold replyTo StreamQuery.request
  dsimp only
  rw [Handler.handleCommand_xdel, (Handler.runFrom_change record.state record.tick).1,
    EntryOp.apply]
  rcases tracks with ⟨absent, nothing⟩ | ⟨items, isStream, isKept, -⟩
  · rw [absent, nothing]
    rfl
  · rw [isStream, Shard.streamDel_stream, isKept, ← map_shown_filter, List.length_map,
      List.length_map]
    rfl

/-- What is stored is the history. -/
theorem Tracks.shownAt_eq (tracks : Tracks key record) :
    shownAt record.state key = record.kept := by
  unfold shownAt
  rcases tracks with ⟨absent, nothing⟩ | ⟨items, isStream, isKept, -⟩
  · rw [absent, nothing]
    rfl
  · rw [isStream, isKept]
    rfl

end

/-- `stream_del` removes one entry for each ID it finds when no ID it names is
held twice. -/
theorem removesOneEach_iff (ids : List Bytes) (kept : List ShownEntry) :
    RemovesOneEach ids kept (kept.filter fun entry => !ids.contains entry.1)
        (.integer (Int64.ofNat
          (kept.length - (kept.filter fun entry => !ids.contains entry.1).length))) ↔
      ((kept.map Prod.fst).filter fun held => ids.contains held).Nodup := by
  have after : (kept.filter fun entry => !ids.contains entry.1).map Prod.fst =
      (kept.map Prod.fst).filter fun held => !ids.contains held := by
    rw [List.filter_map]
    rfl
  have countNamed : ∀ id ∈ ids, (kept.map Prod.fst).count id =
      ((kept.map Prod.fst).filter fun held => ids.contains held).count id := by
    intro id listed
    rw [List.count_filter (List.contains_iff_mem.mpr listed)]
  have countGone : ∀ id ∈ ids,
      ((kept.map Prod.fst).filter fun held => !ids.contains held).count id = 0 := by
    intro id listed
    rw [List.count_eq_zero, List.mem_filter, List.contains_iff_mem.mpr listed]
    exact fun both => Bool.false_ne_true both.2
  constructor
  · intro removes
    rw [List.nodup_iff_count_le_one]
    intro id
    by_cases listed : id ∈ ids
    · have counts := removes.counts id
      rw [after, countGone id listed, if_pos listed, countNamed id listed] at counts
      omega
    · have absent : id ∉ (kept.map Prod.fst).filter fun held => ids.contains held :=
        fun isNamed => listed (List.contains_iff_mem.mp (List.mem_filter.mp isNamed).2)
      rw [List.count_eq_zero.mpr absent]
      exact Nat.zero_le 1
  · intro nodup
    refine ⟨List.filter_sublist, fun id => ?_, ?_⟩
    · rw [after]
      by_cases listed : id ∈ ids
      · have once := List.nodup_iff_count_le_one.mp nodup id
        rw [countGone id listed, if_pos listed, countNamed id listed]
        omega
      · have notNamed : (!ids.contains id) = true := by
          rw [Bool.not_eq_true', ← Bool.not_eq_true, List.contains_iff_mem]
          exact listed
        have kept_ := @List.count_filter _ _ _ (fun held => !ids.contains held) id
          (kept.map Prod.fst) notNamed
        rw [kept_, if_neg listed, Nat.sub_zero]
    · have named : ((kept.map Prod.fst).filter fun held => ids.contains held).Perm
          (ids.dedup.filter fun id => (kept.map Prod.fst).contains id) := by
        rw [List.perm_ext_iff_of_nodup nodup (ids.nodup_dedup.filter _)]
        intro id
        rw [List.mem_filter, List.mem_filter, List.mem_dedup, List.contains_iff_mem,
          List.contains_iff_mem]
        exact and_comm
      have split := @List.length_eq_length_filter_add _ kept fun entry => ids.contains entry.1
      have isLength : ((kept.map Prod.fst).filter fun held => ids.contains held).length =
          (kept.filter fun entry => ids.contains entry.1).length := by
        rw [List.filter_map, List.length_map]
        rfl
      rw [← named.length_eq, isLength]
      congr 2
      omega

/-! ## The law -/

/-- In the state of a run a query is answered as the history asks exactly when
its condition holds. -/
theorem queryExact_iff
    {clock : ℕ → UInt64} {context : HandlerContext} {key : Bytes} {record : Recorded}
    (tracks : Tracks key record) (query : StreamQuery) :
    QueryExact clock context key record query ↔ QueryFine record.kept query := by
  cases query with
  | xrange first last =>
      rw [QueryExact, replyTo_xrange tracks]
      exact rangeExact_iff Function.injective_id rfl (fun _ => tracks.numbered) first last
  | xrevrange last first =>
      rw [QueryExact, replyTo_xrevrange tracks]
      exact rangeExact_iff List.reverse_injective rfl (fun _ => tracks.numbered) first last
  | xlen =>
      refine iff_of_true ⟨record.kept, ?_, replyTo_xlen tracks⟩ trivial
      rw [replyTo_xrange tracks, fromUtf8_asBytes, fromUtf8_asBytes]
      rfl
  | xdel id ids =>
      have after := @Tracks.step clock context key record tracks (.xdel id ids)
      rw [QueryExact, after.shownAt_eq, replyTo_xdel tracks]
      exact removesOneEach_iff (id :: ids) record.kept

/-- An event does not add an entry whose ID is not above those held: where it is
`XADD`, no ID held has a number above the number of entries. -/
def AddsAbove (kept : List ShownEntry) : StreamEvent → Prop
  | .xadd .. => ∀ entry ∈ kept, ∀ numbers, idNumbers entry.1 = some numbers →
      numbers.1 ≤ kept.length
  | _ => True

/-- All events of a run do so. -/
def RunAddsAbove (clock : ℕ → UInt64) (context : HandlerContext) (key : Bytes) :
    Recorded → List StreamEvent → Prop
  | _, [] => True
  | record, event :: events =>
      AddsAbove record.kept event ∧
        RunAddsAbove clock context key (record.step clock context key event) events

section

variable {clock : ℕ → UInt64} {context : HandlerContext} {key : Bytes} {record : Recorded}

/-- An event that adds above keeps the IDs increasing. -/
theorem Increasing.step
    (increasing : Increasing record.kept) (tracks : Tracks key record)
    {event : StreamEvent} (adds : AddsAbove record.kept event) :
    Increasing (record.step clock context key event).kept := by
  cases event with
  | xadd first rest =>
      rw [tracks.kept_xadd, Increasing, List.pairwise_append]
      refine ⟨increasing, List.pairwise_singleton _ _, fun entry listed added isAdded => ?_⟩
      obtain ⟨number, isId⟩ := tracks.numbered listed
      have atMost := adds entry listed _ isId
      rw [List.mem_singleton.mp isAdded]
      exact ⟨_, _, isId, idNumbers_streamId _, .inl (Nat.lt_succ_of_le atMost)⟩
  | xdel id ids => exact List.Pairwise.filter _ increasing
  | del => exact List.Pairwise.nil

/-- So does a run of such events. -/
theorem Increasing.run
    (increasing : Increasing record.kept) (tracks : Tracks key record)
    {events : List StreamEvent} (adds : RunAddsAbove clock context key record events) :
    Increasing (record.run clock context key events).kept := by
  induction events generalizing record with
  | nil => exact increasing
  | cons event events ih => exact ih (increasing.step tracks adds.1) (tracks.step event) adds.2

/-- IDs that increase are distinct. -/
theorem Increasing.nodup {kept : List ShownEntry} (increasing : Increasing kept) :
    (kept.map Prod.fst).Nodup := by
  refine List.pairwise_map.mpr (increasing.imp ?_)
  rintro left right ⟨lower, upper, isLower, isUpper, less⟩ same
  rw [same, isUpper] at isLower
  cases isLower
  omega

end

/-- After every run of `XADD`, `XDEL` and `DEL` on a key that was absent, a query
is answered as the history asks exactly when its condition holds.  After a run
whose additions are above the IDs held, the full ranges and all deletions
are. -/
theorem queries_exact_iff
    (clock : ℕ → UInt64) (context : HandlerContext) (key : Bytes)
    (state : HandlerState) (tick : ℕ) (absent : state.db.lookup key = none)
    (events : List StreamEvent) :
    let after := Recorded.run clock context key ⟨state, tick, []⟩ events
    (∀ query, QueryExact clock context key after query ↔ QueryFine after.kept query) ∧
    (RunAddsAbove clock context key ⟨state, tick, []⟩ events →
      QueryExact clock context key after (.xrange (asBytes "-") (asBytes "+")) ∧
      QueryExact clock context key after (.xrevrange (asBytes "+") (asBytes "-")) ∧
      ∀ id ids, QueryExact clock context key after (.xdel id ids)) := by
  intro after
  have start : Tracks key ⟨state, tick, []⟩ := .inl ⟨absent, rfl⟩
  have tracks : Tracks key after := start.run events
  have exact_iff := @queryExact_iff clock context key after tracks
  refine ⟨exact_iff, fun adds => ?_⟩
  have increasing : Increasing after.kept :=
    @Increasing.run clock context key ⟨state, tick, []⟩ List.Pairwise.nil start events adds
  have full : RangeFine after.kept (asBytes "-") (asBytes "+") :=
    ⟨.lowest, .highest, rfl, rfl, .inl ⟨rfl, rfl, increasing⟩⟩
  exact ⟨(exact_iff _).mpr full, (exact_iff _).mpr full, fun id ids =>
    (exact_iff (.xdel id ids)).mpr (increasing.nodup.filter _)⟩

/-- A server's state without keys. -/
def noKeys : HandlerState := ⟨Db.empty, [], fun _ => none⟩

/-- `XADD s * f v`. -/
def addOne : StreamEvent := .xadd (asBytes "f", asBytes "v") []

theorem queries_exact_addOne :
    QueryExact (fun _ => 0) ⟨none, true⟩ (asBytes "s")
      (Recorded.run (fun _ => 0) ⟨none, true⟩ (asBytes "s") ⟨noKeys, 0, []⟩ [addOne])
      (.xrange (asBytes "-") (asBytes "+")) := by
  refine ((queries_exact_iff (fun _ => 0) ⟨none, true⟩ (asBytes "s") noKeys 0
    (Db.lookup_empty _) [addOne]).2 ⟨fun entry listed => ?_, trivial⟩).1
  cases listed

/-- After `XADD s * f v`, `XRANGE s 1 1` replies with no entry. -/
theorem queries_not_always_exact :
    ¬∀ (clock : ℕ → UInt64) (context : HandlerContext) (key : Bytes) (state : HandlerState)
      (tick : ℕ), state.db.lookup key = none →
      ∀ (events : List StreamEvent) (query : StreamQuery),
        QueryExact clock context key (Recorded.run clock context key ⟨state, tick, []⟩ events)
          query := by
  intro exact_
  have reply := exact_ (fun _ => 0) ⟨none, true⟩ (asBytes "s") noKeys 0 (Db.lookup_empty _)
    [addOne] (.xrange (asBytes "1") (asBytes "1"))
  have start : Tracks (asBytes "s") ⟨noKeys, 0, []⟩ := .inl ⟨Db.lookup_empty _, rfl⟩
  rw [queryExact_iff (start.run [addOne])] at reply
  have isKept : (Recorded.run (fun _ => 0) ⟨none, true⟩ (asBytes "s") ⟨noKeys, 0, []⟩
      [addOne]).kept = [(asBytes (streamId 1), [(asBytes "f", asBytes "v")])] :=
    start.kept_xadd _ _
  obtain ⟨lower, upper, isLower, isUpper, fine⟩ := reply
  cases (show Bound.parse (asBytes "1") = some (.number 1) by decide).symm.trans isLower
  cases (show Bound.parse (asBytes "1") = some (.number 1) by decide).symm.trans isUpper
  rcases fine with ⟨isDash, -, -⟩ | none_
  · exact absurd (asBytes_injective isDash) (by decide)
  · have outside := none_ (asBytes (streamId 1), [(asBytes "f", asBytes "v")]) (by
      rw [isKept]
      exact List.mem_singleton_self _)
    rw [between, idNumbers_streamId] at outside
    cases outside

end Cache
end MuonJs
