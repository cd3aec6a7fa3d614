import MuonJs.Cache.AofWorker
import MuonJs.Cache.Decoding

/-!
# Requests from a connection that breaks off

The reader takes the last line of a connection as it is, with or without its
end.  Such a line never completes a command: it reads as a null, as a length
that nothing follows, or it is met by the end of the connection.
-/

namespace MuonJs
namespace Cache

/-! ## The requests of a connection -/

/-- The arguments of a request that is executed. -/
def requestArgs (value : RespValue) : Option (List Bytes) :=
  match valueToArgs value with
  | .ok (name :: args) => some (name :: args)
  | _ => none

/-- The requests that the loop of `handle_client` takes from what arrives before
the connection is closed. -/
def requests (input : Bytes) : List (List Bytes) :=
  match _ : readValue true input with
  | .done (some value) unread => (requestArgs value).toList ++ requests unread
  | _ => []
termination_by input.length
decreasing_by exact readValue_reads ‹_›

/-- A frame is followed by the requests of what it leaves unread. -/
theorem requests_of_done
    {input unread : Bytes} {value : RespValue}
    (isRead : readValue true input = .done (some value) unread) :
    requests input = (requestArgs value).toList ++ requests unread := by
  rw [requests.eq_def]
  split
  · rename_i isRead'
    rw [isRead] at isRead'
    cases isRead'
    rfl
  · rename_i notRead
    exact absurd isRead (notRead _ _)

/-- The last read of a connection that gives no request. -/
def NoRequest : Reading (Option RespValue) → Prop
  | .done (some value) unread => requestArgs value = none ∧ unread = []
  | _ => True

theorem requests_of_noRequest
    {input : Bytes} (last : NoRequest (readValue true input)) :
    requests input = [] := by
  rw [requests.eq_def]
  split
  · rename_i isRead
    rw [isRead] at last
    obtain ⟨notRequest, rfl⟩ := last
    rw [notRequest, requests.eq_def]
    rfl
  · rfl

/-! ## Commands as they are sent -/

/-- The three ways to write a command. -/
inductive CommandWriter
  | respValue
  | arrayOfBlobs
  | aof

/-- A command that is sent, with at least its name. -/
structure SentCommand where
  writer : CommandWriter
  name : Bytes
  args : List Bytes

namespace SentCommand

/-- The name and the arguments. -/
def words (sent : SentCommand) : List Bytes := sent.name :: sent.args

/-- The bytes of the command. -/
def frame (sent : SentCommand) : Bytes :=
  match sent.writer with
  | .respValue => (RespValue.blobs sent.words).encode
  | .arrayOfBlobs => encodeArrayOfBlobs sent.words
  | .aof => encodeCmd sent.name sent.args

end SentCommand

theorem asBytes_toString (n : ℕ) : asBytes (toString n) = natBytes n := by
  rw [asBytes_eq_flatMap, show toString n = n.repr from rfl, Nat.toList_repr,
    natBytes]
  have digits : ∀ digits : List Char, (∀ digit ∈ digits, digit.isDigit = true) →
      digits.flatMap String.utf8EncodeChar =
        digits.map fun digit => UInt8.ofNat digit.toNat := by
    intro digits areDigits
    induction digits with
    | nil => rfl
    | cons digit digits ih =>
        have isDigit := areDigits digit List.mem_cons_self
        rw [Char.isDigit, Bool.and_eq_true, decide_eq_true_eq,
          decide_eq_true_eq] at isDigit
        have high : digit.val.toNat ≤ 57 := isDigit.2
        have ascii : String.utf8EncodeChar digit = [UInt8.ofNat digit.toNat] := by
          rw [String.utf8EncodeChar]
          exact if_pos (by omega)
        rw [List.flatMap_cons, List.map_cons, ascii,
          ih fun other isOther => areDigits other (List.mem_cons_of_mem _ isOther)]
        rfl
  exact digits _ fun digit isDigit => isDigit_of_mem_decimal isDigit

theorem encodeBulk_eq (item : Bytes) : encodeBulk item = encodeBlob item := by
  rw [encodeBulk, encodeBlob, line, asBytes_toString, ← pushUsize_eq,
    List.append_assoc, List.append_assoc, List.append_assoc, List.cons_append,
    List.append_assoc]
  rfl

/-- All writers write the same bytes. -/
theorem SentCommand.frame_eq (sent : SentCommand) :
    sent.frame = 42 :: (pushUsize sent.words.length ++ crlf ++
      sent.words.flatMap encodeBlob) := by
  have blobs : encodeArrayOfBlobs sent.words =
      42 :: (pushUsize sent.words.length ++ crlf ++
        sent.words.flatMap encodeBlob) := rfl
  unfold frame
  split
  · rw [← encodeArrayOfBlobs_eq, blobs]
  · exact blobs
  · rw [← blobs, encodeArrayOfBlobs, encodeCmd, line, asBytes_toString,
      ← pushUsize_eq, funext encodeBulk_eq, words, List.length_cons,
      List.flatMap_cons, List.cons_append]
    simp only [List.append_assoc]
    rfl

/-! ## Frames that break off -/

theorem readLineBytes_of_noLineFeed {text : Bytes} (noLineFeed : 10 ∉ text) :
    ∃ line, readLineBytes true text = .done line [] := by
  have isRead : readUntil true text = .done text [] := by
    induction text with
    | nil => rfl
    | cons byte text ih =>
        rw [List.mem_cons, not_or] at noLineFeed
        rw [readUntil, if_neg (Ne.symm noLineFeed.1), ih noLineFeed.2,
          Reading.map_done]
  exact ⟨stripLineEnd text, by rw [readLineBytes, isRead, Reading.map_done]⟩

/-- A line that breaks off has no line feed. -/
theorem noLineFeed_take
    {text : Bytes} (noLineFeed : 10 ∉ text) {cut : ℕ}
    (within : cut < (text ++ crlf).length) (rest : Bytes) :
    10 ∉ (text ++ crlf ++ rest).take cut := by
  rw [List.take_append_of_le_length within.le]
  rw [List.length_append, show crlf.length = 2 from rfl] at within
  rw [show text ++ crlf = (text ++ [13]) ++ [10] by
      rw [List.append_assoc]; rfl,
    List.take_append_of_le_length (by
      rw [List.length_append, List.length_singleton]
      omega)]
  intro isLineFeed
  have inLine := List.mem_of_mem_take isLineFeed
  rw [List.mem_append, List.mem_singleton] at inLine
  obtain inText | isReturn := inLine
  · exact noLineFeed inText
  · revert isReturn
    decide

/-- The end of the connection inside an array. -/
theorem arrayLoop_nil (frame : ArrayFrame) :
    arrayLoop true frame [] [] =
      if frame.remaining = 0 then .done (some (.array frame.items)) []
      else .done none [] := by
  split
  · rename_i complete
    rw [arrayLoop_of_complete complete]
  · rename_i missing
    rw [arrayLoop_of_missing missing]
    rfl

theorem requestArgs_of_null {items : List RespValue} (hasNull : .null ∈ items) :
    requestArgs (.array items) = none := by
  have fails : ∃ message, items.mapM itemToArg = .error message := by
    induction items with
    | nil => cases hasNull
    | cons item items ih =>
        rw [List.mapM_cons]
        cases isArg : itemToArg item with
        | error message => exact ⟨message, rfl⟩
        | ok arg =>
            obtain rfl | inRest := List.mem_cons.mp hasNull
            · cases isArg
            · obtain ⟨message, isError⟩ := ih inRest
              rw [isError]
              exact ⟨message, rfl⟩
  obtain ⟨message, isError⟩ := fails
  rw [requestArgs, valueToArgs, isError]

/-- An array whose items are missing or with a null gives no request. -/
theorem noRequest_arrayLoop_nil
    {frame : ArrayFrame} (notArgs : frame.items = [] ∨ .null ∈ frame.items) :
    NoRequest (arrayLoop true frame [] []) := by
  rw [arrayLoop_nil]
  split
  · refine ⟨?_, rfl⟩
    obtain isEmpty | hasNull := notArgs
    · rw [isEmpty]
      rfl
    · exact requestArgs_of_null hasNull
  · trivial

theorem readExact_short {len : ℕ} {input : Bytes} (short : input.length < len) :
    readExact true len input = .unexpectedEof := by
  rw [readExact, if_neg (not_le.mpr short), if_pos rfl]

/-- A byte string that breaks off is read as a null, or as the end of the
connection. -/
theorem readSingleElement_take
    {item : Bytes} (inRange : item.length < 2 ^ 63) {cut : ℕ}
    (within : cut < (pushUsize item.length ++ crlf ++ (item ++ crlf)).length) :
    readSingleElement true 36 false
        ((pushUsize item.length ++ crlf ++ (item ++ crlf)).take cut) =
          .unexpectedEof ∨
      readSingleElement true 36 false
        ((pushUsize item.length ++ crlf ++ (item ++ crlf)).take cut) =
          .done .null [] := by
  rw [readSingleElement, if_neg (by decide), if_neg (by decide),
    if_neg (by decide), if_neg (by decide), if_pos rfl]
  by_cases inLine : cut < (pushUsize item.length ++ crlf).length
  · have noLineFeed : 10 ∉ pushUsize item.length := by
      rw [pushUsize_eq]
      exact not_mem_natBytes _
    obtain ⟨line, isRead⟩ := readLineBytes_of_noLineFeed
      (noLineFeed_take noLineFeed inLine (item ++ crlf))
    rw [isRead, Reading.bind_done]
    dsimp only
    split
    · exact .inr rfl
    · left
      generalize ((Resp.parseI64Bytes line).getD (-1)).toInt.toNat = len
      cases len with
      | zero => rfl
      | succ len =>
          rw [readExact_short (Nat.succ_pos len)]
          rfl
  · obtain ⟨len, isLen, notNegative, isLength⟩ := parseI64Bytes_pushUsize inRange
    left
    rw [not_lt] at inLine
    rw [List.take_append, List.take_of_length_le inLine, readLineBytes_pushUsize,
      Reading.bind_done]
    dsimp only
    rw [isLen, Option.getD_some, if_neg notNegative, isLength]
    have withEnd : (item ++ crlf).length = item.length + 2 := List.length_append
    rw [List.length_append, withEnd] at within
    generalize isLeft : cut - (pushUsize item.length ++ crlf).length = left
    by_cases inItem : left < item.length
    · rw [readExact_short (lt_of_le_of_lt (List.length_take_le _ _) inItem)]
      rfl
    · rw [List.take_append, List.take_of_length_le (not_lt.mp inItem),
        readExact_append, Reading.bind_done, readExact_short]
      · rfl
      · exact lt_of_le_of_lt (List.length_take_le _ _) (by omega)

/-- An item that breaks off is read as a null, or the connection ends. -/
theorem noRequest_take_item
    (current : ArrayFrame) {item : Bytes} (inRange : item.length < 2 ^ 63) {cut : ℕ}
    (missing : current.remaining ≠ 0) (within : cut < (encodeBlob item).length) :
    NoRequest (arrayLoop true current [] ((encodeBlob item).take cut)) := by
  rw [arrayLoop_of_missing missing]
  cases cut with
  | zero => trivial
  | succ cut =>
      have isCut : (encodeBlob item).take (cut + 1) =
          36 :: (pushUsize item.length ++ crlf ++ (item ++ crlf)).take cut := rfl
      rw [isCut, readItem, readPrefix, Reading.bind_done]
      dsimp only
      rw [if_neg (by decide)]
      obtain isEof | isNull :=
        readSingleElement_take inRange (Nat.lt_of_succ_lt_succ within)
      · rw [isEof]
        trivial
      · rw [isNull]
        exact noRequest_arrayLoop_nil (.inr (by simp [ArrayFrame.push]))

/-- Items that break off give no request. -/
theorem noRequest_take_items
    {items : List Bytes} (inRange : ∀ item ∈ items, item.length < 2 ^ 63)
    (current : ArrayFrame) (missing : current.remaining = items.length)
    {cut : ℕ} (within : cut < (items.flatMap encodeBlob).length) :
    NoRequest (arrayLoop true current [] ((items.flatMap encodeBlob).take cut)) := by
  induction items generalizing current cut with
  | nil => cases within
  | cons item items ih =>
      have isMissing : current.remaining ≠ 0 := by
        rw [missing]
        exact Nat.succ_ne_zero _
      have itemInRange := inRange item List.mem_cons_self
      rw [List.flatMap_cons] at within ⊢
      by_cases inItem : cut < (encodeBlob item).length
      · rw [List.take_append_of_le_length inItem.le]
        exact noRequest_take_item current itemInRange isMissing inItem
      · rw [not_lt] at inItem
        rw [List.length_append] at within
        have framed : (RespValue.blob item).Framed := by
          rw [RespValue.Framed]
          exact itemInRange
        have isRead := arrayLoop_encode true (.blob item) framed current isMissing []
          ((items.flatMap encodeBlob).take (cut - (encodeBlob item).length))
        rw [RespValue.encode] at isRead
        rw [List.take_append, List.take_of_length_le inItem, isRead]
        refine ih (fun other isItem => inRange other (List.mem_cons_of_mem _ isItem))
          _ ?_ (by omega)
        rw [ArrayFrame.push, missing, List.length_cons, Nat.add_sub_cancel]

namespace SentCommand

/-- What fits into memory. -/
def Framed (sent : SentCommand) : Prop :=
  sent.words.length * sizeOfRespValue < 2 ^ 63 ∧
    ∀ word ∈ sent.words, word.length < 2 ^ 63

/-- A command that breaks off gives no request. -/
theorem noRequest_take
    {sent : SentCommand} (framed : sent.Framed) {cut : ℕ}
    (within : cut < sent.frame.length) :
    NoRequest (readValue true (sent.frame.take cut)) := by
  rw [frame_eq] at within ⊢
  cases cut with
  | zero => trivial
  | succ cut =>
      have withinPayload := Nat.lt_of_succ_lt_succ within
      rw [List.take_succ_cons, readValue, readPrefix, Reading.bind_done]
      dsimp only
      rw [readValueFromTag, if_pos rfl]
      by_cases inLine : cut < (pushUsize sent.words.length ++ crlf).length
      · have noLineFeed : 10 ∉ pushUsize sent.words.length := by
          rw [pushUsize_eq]
          exact not_mem_natBytes _
        obtain ⟨line, isRead⟩ := readLineBytes_of_noLineFeed
          (noLineFeed_take noLineFeed inLine (sent.words.flatMap encodeBlob))
        rw [readArrayLen, isRead, Reading.map_done, Reading.bind_done]
        generalize (Resp.parseI64Bytes line).getD (-1) = len
        split
        · exact ⟨rfl, rfl⟩
        · rw [beginArray, ArrayFrame.new]
          by_cases fits : len.toInt.toNat * sizeOfRespValue < 2 ^ 63
          · rw [if_pos fits]
            exact noRequest_arrayLoop_nil (.inl rfl)
          · rw [if_neg fits]
            trivial
      · obtain ⟨len, isRead, notNegative, isLength⟩ :=
          readArrayLen_append true framed.1 ((sent.words.flatMap encodeBlob).take
            (cut - (pushUsize sent.words.length ++ crlf).length))
        rw [not_lt] at inLine
        rw [List.length_append] at withinPayload
        rw [List.take_append, List.take_of_length_le inLine, isRead,
          Reading.bind_done, if_neg notNegative, isLength, beginArray_fits framed.1]
        exact noRequest_take_items framed.2 _ rfl (by omega)

end SentCommand

/-! ## Streams of commands -/

/-- The commands whose frames lie wholly before the cut. -/
def wholeBefore (cut : ℕ) : List SentCommand → List (List Bytes)
  | [] => []
  | sent :: commands =>
      if sent.frame.length ≤ cut then
        sent.words :: wholeBefore (cut - sent.frame.length) commands
      else []

theorem requestArgs_words (sent : SentCommand) :
    requestArgs (RespValue.blobs sent.words) = some sent.words := by
  have isArgs : ∀ words : List Bytes,
      (words.map RespValue.blob).mapM itemToArg = .ok words := by
    intro words
    induction words with
    | nil => rfl
    | cons word words ih =>
        rw [List.map_cons, List.mapM_cons, ih]
        rfl
  rw [requestArgs, RespValue.blobs, valueToArgs, isArgs]
  rfl

/-- A whole command is the next request. -/
theorem requests_frame
    {sent : SentCommand} (framed : sent.Framed) (rest : Bytes) :
    requests (sent.frame ++ rest) = sent.words :: requests rest := by
  have framedItems : ∀ words : List Bytes, (∀ word ∈ words, word.length < 2 ^ 63) →
      RespValue.FramedItems (words.map .blob) ∧
        RespValue.readBackItems (words.map .blob) = words.map .blob := by
    intro words inRange
    induction words with
    | nil => exact ⟨trivial, rfl⟩
    | cons word words ih =>
        obtain ⟨framedRest, sameRest⟩ :=
          ih fun other isWord => inRange other (List.mem_cons_of_mem _ isWord)
        rw [List.map_cons, RespValue.FramedItems, RespValue.readBackItems, sameRest,
          RespValue.Framed, RespValue.readBack]
        exact ⟨⟨inRange word List.mem_cons_self, framedRest⟩, rfl⟩
  obtain ⟨framedWords, sameWords⟩ := framedItems sent.words framed.2
  have framedArray : (RespValue.blobs sent.words).Framed := by
    rw [RespValue.blobs, RespValue.Framed, List.length_map]
    exact ⟨framed.1, framedWords⟩
  have isFrame : sent.frame = (RespValue.blobs sent.words).encode := by
    rw [SentCommand.frame_eq, ← encodeArrayOfBlobs_eq]
    rfl
  have isRead := readValue_encode true framedArray rest
  rw [RespValue.blobs, RespValue.readBack, sameWords, ← RespValue.blobs] at isRead
  rw [isFrame, requests_of_done isRead, requestArgs_words]
  rfl

/-- However the stream of commands breaks off, the requests executed are the
commands that lie wholly before the break, in order. -/
theorem requests_take
    (commands : List SentCommand) (framed : ∀ sent ∈ commands, sent.Framed)
    (cut : ℕ) :
    requests ((commands.flatMap SentCommand.frame).take cut) =
      wholeBefore cut commands := by
  induction commands generalizing cut with
  | nil =>
      rw [List.flatMap_nil, List.take_nil, wholeBefore]
      exact requests_of_noRequest trivial
  | cons sent commands ih =>
      have sentFramed := framed sent List.mem_cons_self
      rw [List.flatMap_cons, wholeBefore]
      by_cases whole : sent.frame.length ≤ cut
      · rw [if_pos whole, List.take_append, List.take_of_length_le whole,
          requests_frame sentFramed,
          ih fun other isSent => framed other (List.mem_cons_of_mem _ isSent)]
      · rw [not_le] at whole
        rw [if_neg (not_le.mpr whole), List.take_append_of_le_length whole.le]
        exact requests_of_noRequest (SentCommand.noRequest_take sentFramed whole)

/-- Two commands, cut inside the second. -/
theorem requests_take_ping :
    requests (([⟨.aof, asBytes "PING", []⟩,
      ⟨.respValue, asBytes "ECHO", [asBytes "a"]⟩].flatMap SentCommand.frame).take
        30) = [[asBytes "PING"]] := by
  rw [requests_take]
  · simp only [wholeBefore, SentCommand.frame_eq, SentCommand.words,
      List.flatMap_cons, encodeBlob, pushUsize_eq]
    rfl
  · intro sent isSent
    rw [List.mem_cons, List.mem_singleton] at isSent
    obtain rfl | rfl := isSent
    · exact ⟨by decide, by decide⟩
    · exact ⟨by decide, by decide⟩

end Cache
end MuonJs
