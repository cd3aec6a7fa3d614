import MuonJs.Cache.Resp

/-!
# Frames

How replies are written and requests are read: `encode`, and the reader with its
explicit stack of unfinished arrays.  The reader works on what has arrived and
is not read yet; it waits when that ends before its frame does, unless the
connection is closed.
-/

namespace MuonJs
namespace Cache

/-! ## Writing -/

/-- The digit loop of `push_usize` and `push_i64`, from the last digit on. -/
def pushDigits (n : ℕ) (written : Bytes) : Bytes :=
  if n = 0 then written
  else pushDigits (n / 10) (UInt8.ofNat (48 + n % 10) :: written)

/-- `push_usize`. -/
def pushUsize (n : ℕ) : Bytes :=
  if n = 0 then [48] else pushDigits n []

/-- `push_i64`. -/
def pushI64 (n : Int64) : Bytes :=
  if n = 0 then [48]
  else if n < 0 then 45 :: pushDigits n.toInt.natAbs []
  else pushDigits n.toInt.natAbs []

/-- The end of a line. -/
def crlf : Bytes := [13, 10]

/-- A line: its first byte, its text and its end. -/
def line (tag : UInt8) (text : Bytes) : Bytes := tag :: (text ++ crlf)

/-- A byte string after its length. -/
def encodeBlob (bytes : Bytes) : Bytes :=
  line 36 (pushUsize bytes.length) ++ (bytes ++ crlf)

namespace RespValue

mutual

/-- `RespValue::encode`. -/
def encode : RespValue → Bytes
  | .simple text => line 43 (asBytes text)
  | .error message => line 45 (asBytes message)
  | .integer value => line 58 (pushI64 value)
  | .blob bytes => encodeBlob bytes
  | .null => line 95 []
  | .array items => line 42 (pushUsize items.length) ++ encodeItems items

/-- The items of an array. -/
def encodeItems : List RespValue → Bytes
  | [] => []
  | item :: items => encode item ++ encodeItems items

end

end RespValue

/-- `encode_array_of_blobs`. -/
def encodeArrayOfBlobs (items : List Bytes) : Bytes :=
  line 42 (pushUsize items.length) ++ items.flatMap encodeBlob

/-- `FastResponse`: a reply, or an array of byte strings that is written without
making it a reply first. -/
inductive FastResponse
  | value (reply : RespValue)
  | blobArray (items : List Bytes)

/-- What is written to the connection. -/
def FastResponse.encode : FastResponse → Bytes
  | .value reply => reply.encode
  | .blobArray items => encodeArrayOfBlobs items

/-- Both ways to write an array of byte strings write the same bytes. -/
theorem encodeArrayOfBlobs_eq (items : List Bytes) :
    encodeArrayOfBlobs items = (RespValue.blobs items).encode := by
  have encodeItems_blobs : ∀ items : List Bytes,
      RespValue.encodeItems (items.map .blob) = items.flatMap encodeBlob := by
    intro items
    induction items with
    | nil => rw [List.map_nil, RespValue.encodeItems, List.flatMap_nil]
    | cons item items ih =>
        rw [List.map_cons, RespValue.encodeItems, ih, RespValue.encode,
          List.flatMap_cons]
  rw [RespValue.blobs, RespValue.encode, encodeItems_blobs, List.length_map,
    encodeArrayOfBlobs]

/-! ## Reading -/

/-- How a read ends: with a value and what is left unread, with the error for a
connection that ends too early, or with the end of the process; or it waits for
more bytes. -/
inductive Reading (α : Type)
  | done (value : α) (unread : Bytes)
  | unexpectedEof
  | panics
  | waits

namespace Reading

/-- Go on with the value and the unread bytes. -/
def bind (reading : Reading α) (follow : α → Bytes → Reading β) : Reading β :=
  match reading with
  | .done value unread => follow value unread
  | .unexpectedEof => .unexpectedEof
  | .panics => .panics
  | .waits => .waits

@[simp] theorem bind_done
    (value : α) (unread : Bytes) (follow : α → Bytes → Reading β) :
    (done value unread).bind follow = follow value unread := rfl

/-- Change the value. -/
def map (f : α → β) (reading : Reading α) : Reading β :=
  reading.bind fun value unread => .done (f value) unread

@[simp] theorem map_done (f : α → β) (value : α) (unread : Bytes) :
    (done value unread).map f = .done (f value) unread := rfl

end Reading

/-- `read_prefix`: one byte, or none at the end of the connection. -/
def readPrefix (closed : Bool) : Bytes → Reading (Option UInt8)
  | byte :: input => .done (some byte) input
  | [] => if closed then .done none [] else .waits

/-- `read_until` up to a line feed; at the end of the connection what there is. -/
def readUntil (closed : Bool) : Bytes → Reading Bytes
  | [] => if closed then .done [] [] else .waits
  | byte :: input =>
      if byte = 10 then .done [10] input
      else (readUntil closed input).map fun rest => byte :: rest

/-- `read_exact`. -/
def readExact (closed : Bool) (len : ℕ) (input : Bytes) : Reading Bytes :=
  if len ≤ input.length then .done (input.take len) (input.drop len)
  else if closed then .unexpectedEof
  else .waits

/-- A line without its end. -/
def stripLineEnd (line : Bytes) : Bytes :=
  if crlf.isSuffixOf line then line.take (line.length - 2)
  else if [10].isSuffixOf line then line.take (line.length - 1)
  else line

/-- `read_line_bytes`. -/
def readLineBytes (closed : Bool) (input : Bytes) : Reading Bytes :=
  (readUntil closed input).map stripLineEnd

namespace Resp

/-- The digit loop of `parse_i64_bytes`, with `checked_mul` and `checked_add`. -/
def parseI64Loop (value : Int64) : Bytes → Option Int64
  | [] => some value
  | byte :: rest =>
      if isAsciiDigit byte then
        (toI64 (value.toInt * 10)).bind fun value =>
          (toI64 (value.toInt + (byte.toNat - 48 : ℕ))).bind fun value =>
            parseI64Loop value rest
      else none

/-- `parse_i64_bytes`. -/
def parseI64Bytes : Bytes → Option Int64
  | [] => none
  | [45] => none
  | 45 :: digits => (parseI64Loop 0 digits).map fun value => -value
  | digits => parseI64Loop 0 digits

end Resp

/-- `read_array_len`. -/
def readArrayLen (closed : Bool) (input : Bytes) : Reading Int64 :=
  (readLineBytes closed input).map fun line => (Resp.parseI64Bytes line).getD (-1)

/-- The parts between bytes of white space that are not empty; `part` is the part
that the input continues. -/
def splitWhitespace (part : Bytes) : Bytes → List Bytes
  | [] => if part.isEmpty then [] else [part]
  | byte :: rest =>
      if isAsciiWhitespace byte then
        if part.isEmpty then splitWhitespace [] rest
        else part :: splitWhitespace [] rest
      else splitWhitespace (part ++ [byte]) rest

/-- `read_inline_command`. -/
def readInlineCommand (closed : Bool) (first : UInt8) (input : Bytes) :
    Reading RespValue :=
  (readUntil closed input).map fun rest =>
    .blobs (splitWhitespace [] (stripLineEnd (first :: rest)))

/-- `read_single_element`, which always has a value. -/
def readSingleElement (closed : Bool) (tag : UInt8) (allowInline : Bool)
    (input : Bytes) : Reading RespValue :=
  if tag = 43 then
    (readLineBytes closed input).map fun line => .simple (fromUtf8Lossy line)
  else if tag = 45 then
    (readLineBytes closed input).map fun line => .error (fromUtf8Lossy line)
  else if tag = 58 then
    (readLineBytes closed input).map fun line =>
      .integer ((Resp.parseI64Bytes line).getD 0)
  else if tag = 95 then
    (readLineBytes closed input).map fun _ => .null
  else if tag = 36 then
    (readLineBytes closed input).bind fun line input =>
      let len := (Resp.parseI64Bytes line).getD (-1)
      if len < 0 then .done .null input
      else
        (readExact closed len.toInt.toNat input).bind fun bytes input =>
          (readExact closed 2 input).map fun _ => .blob bytes
  else if allowInline then readInlineCommand closed tag input
  else .done (.error "ERR unknown RESP type") input

/-- The size of a `RespValue` in memory. -/
def sizeOfRespValue : ℕ := 32

/-- `ArrayFrame`: an array of which `remaining` items are still to be read. -/
structure ArrayFrame where
  remaining : ℕ
  items : List RespValue

namespace ArrayFrame

/-- `ArrayFrame::new`: the process ends when the items would take more than
`isize::MAX` bytes. -/
def new (len : ℕ) : Option ArrayFrame :=
  if len * sizeOfRespValue < 2 ^ 63 then some ⟨len, []⟩ else none

/-- One more item. -/
def push (frame : ArrayFrame) (item : RespValue) : ArrayFrame :=
  ⟨frame.remaining - 1, frame.items ++ [item]⟩

end ArrayFrame

/-- What one round of the array loop does when an item is missing: end with a
value or none, or go on with other arrays on the stack. -/
inductive Round
  | finished (value : Option RespValue)
  | goOn (current : ArrayFrame) (stack : List ArrayFrame)

/-- Begin an array of this length. -/
def beginArray (len : ℕ) (follow : ArrayFrame → Reading α) : Reading α :=
  match ArrayFrame.new len with
  | some frame => follow frame
  | none => .panics

/-- The body of the array loop when an item is missing. -/
def readItem (closed : Bool) (current : ArrayFrame) (stack : List ArrayFrame)
    (input : Bytes) : Reading Round :=
  (readPrefix closed input).bind fun tag input =>
    match tag with
    | none => .done (.finished none) input
    | some tag =>
        if tag = 42 then
          (readArrayLen closed input).bind fun len input =>
            if len < 0 then .done (.goOn (current.push .null) stack) input
            else beginArray len.toInt.toNat fun frame =>
              .done (.goOn frame (current :: stack)) input
        else
          (readSingleElement closed tag false input).map fun value =>
            .goOn (current.push value) stack

/-! ### Every round reads at least one byte -/

/-- A read that leaves no more unread than there was. -/
def Reading.LeavesAtMost (reading : Reading α) (bound : ℕ) : Prop :=
  ∀ value unread, reading = .done value unread → unread.length ≤ bound

namespace Reading

theorem LeavesAtMost.mono
    {reading : Reading α} {bound bound' : ℕ}
    (leaves : reading.LeavesAtMost bound) (atMost : bound ≤ bound') :
    reading.LeavesAtMost bound' :=
  fun value unread isDone => (leaves value unread isDone).trans atMost

theorem leavesAtMost_done {value : α} {unread : Bytes} {bound : ℕ}
    (few : unread.length ≤ bound) : (done value unread).LeavesAtMost bound := by
  intro value' unread' isDone
  cases isDone
  exact few

theorem leavesAtMost_waits {bound : ℕ} :
    (waits : Reading α).LeavesAtMost bound := by
  intro value unread isDone
  cases isDone

theorem leavesAtMost_unexpectedEof {bound : ℕ} :
    (unexpectedEof : Reading α).LeavesAtMost bound := by
  intro value unread isDone
  cases isDone

theorem leavesAtMost_panics {bound : ℕ} :
    (panics : Reading α).LeavesAtMost bound := by
  intro value unread isDone
  cases isDone

theorem LeavesAtMost.bind
    {reading : Reading α} {follow : α → Bytes → Reading β} {bound : ℕ}
    (leaves : reading.LeavesAtMost bound)
    (follows : ∀ value unread, unread.length ≤ bound →
      (follow value unread).LeavesAtMost bound) :
    (reading.bind follow).LeavesAtMost bound := by
  cases reading with
  | done value unread => exact follows value unread (leaves value unread rfl)
  | unexpectedEof => exact leavesAtMost_unexpectedEof
  | panics => exact leavesAtMost_panics
  | waits => exact leavesAtMost_waits

theorem LeavesAtMost.map
    {reading : Reading α} {bound : ℕ} (f : α → β)
    (leaves : reading.LeavesAtMost bound) :
    (reading.map f).LeavesAtMost bound :=
  leaves.bind fun _ _ few => leavesAtMost_done few

end Reading

theorem readUntil_leaves (closed : Bool) (input : Bytes) :
    (readUntil closed input).LeavesAtMost input.length := by
  induction input with
  | nil =>
      rw [readUntil]
      split
      · exact Reading.leavesAtMost_done (le_refl _)
      · exact Reading.leavesAtMost_waits
  | cons byte input ih =>
      rw [readUntil, List.length_cons]
      split
      · exact Reading.leavesAtMost_done (Nat.le_succ _)
      · exact (ih.map _).mono (Nat.le_succ _)

theorem readLineBytes_leaves (closed : Bool) (input : Bytes) :
    (readLineBytes closed input).LeavesAtMost input.length :=
  (readUntil_leaves closed input).map _

theorem readExact_leaves (closed : Bool) (len : ℕ) (input : Bytes) :
    (readExact closed len input).LeavesAtMost input.length := by
  unfold readExact
  split
  · apply Reading.leavesAtMost_done
    rw [List.length_drop]
    exact Nat.sub_le _ _
  · split
    · exact Reading.leavesAtMost_unexpectedEof
    · exact Reading.leavesAtMost_waits

theorem readSingleElement_leaves
    (closed : Bool) (tag : UInt8) (allowInline : Bool) (input : Bytes) :
    (readSingleElement closed tag allowInline input).LeavesAtMost
      input.length := by
  have afterLine := readLineBytes_leaves closed input
  unfold readSingleElement
  split
  · exact afterLine.map _
  split
  · exact afterLine.map _
  split
  · exact afterLine.map _
  split
  · exact afterLine.map _
  split
  · refine afterLine.bind fun line unread few => ?_
    dsimp only
    split
    · exact Reading.leavesAtMost_done few
    · refine Reading.LeavesAtMost.bind
        ((readExact_leaves closed _ unread).mono few) fun bytes unread few => ?_
      exact ((readExact_leaves closed 2 unread).map _).mono few
  split
  · exact (readUntil_leaves closed input).map _
  · exact Reading.leavesAtMost_done (le_refl _)

theorem readItem_leaves
    (closed : Bool) (current : ArrayFrame) (stack : List ArrayFrame)
    (tag : UInt8) (input : Bytes) :
    (readItem closed current stack (tag :: input)).LeavesAtMost input.length := by
  unfold readItem readPrefix
  rw [Reading.bind_done]
  dsimp only
  split
  · refine ((readLineBytes_leaves closed input).map _).bind
      fun len unread few => ?_
    split
    · exact Reading.leavesAtMost_done few
    · unfold beginArray
      split
      · exact Reading.leavesAtMost_done few
      · exact Reading.leavesAtMost_panics
  · exact (readSingleElement_leaves closed tag false input).map _

/-- A round that does not end the loop reads at least one byte. -/
theorem readItem_goOn
    {closed : Bool} {current current' : ArrayFrame}
    {stack stack' : List ArrayFrame} {input unread : Bytes}
    (goesOn : readItem closed current stack input =
      .done (.goOn current' stack') unread) :
    unread.length < input.length := by
  cases input with
  | nil =>
      cases closed with
      | false => cases goesOn
      | true => cases goesOn
  | cons tag input =>
      exact Nat.lt_succ_of_le
        (readItem_leaves closed current stack tag input _ _ goesOn)

theorem readItem_finished
    {closed : Bool} {current : ArrayFrame} {stack : List ArrayFrame}
    {input unread : Bytes} {value : Option RespValue}
    (ends : readItem closed current stack input = .done (.finished value) unread) :
    unread.length ≤ input.length := by
  cases input with
  | nil =>
      cases closed with
      | false => cases ends
      | true =>
          cases ends
          exact le_refl _
  | cons tag input =>
      exact Nat.le_succ_of_le
        (readItem_leaves closed current stack tag input _ _ ends)

/-! ### The array loop -/

/-- The loop of `read_value_from_tag`. -/
def arrayLoop (closed : Bool) (current : ArrayFrame) (stack : List ArrayFrame)
    (input : Bytes) : Reading (Option RespValue) :=
  if current.remaining = 0 then
    match stack with
    | [] => .done (some (.array current.items)) input
    | parent :: stack =>
        arrayLoop closed (parent.push (.array current.items)) stack input
  else
    match _ : readItem closed current stack input with
    | .done (.finished value) unread => .done value unread
    | .done (.goOn current stack) unread => arrayLoop closed current stack unread
    | .unexpectedEof => .unexpectedEof
    | .panics => .panics
    | .waits => .waits
termination_by (input.length, stack.length)
decreasing_by
  · exact Prod.Lex.right _ (Nat.lt_succ_self _)
  · exact Prod.Lex.left _ _ (readItem_goOn ‹_›)

theorem arrayLoop_of_complete
    {closed : Bool} {current : ArrayFrame} {stack : List ArrayFrame}
    {input : Bytes} (complete : current.remaining = 0) :
    arrayLoop closed current stack input =
      match stack with
      | [] => .done (some (.array current.items)) input
      | parent :: stack =>
          arrayLoop closed (parent.push (.array current.items)) stack input := by
  rw [arrayLoop.eq_def, if_pos complete]

theorem arrayLoop_of_missing
    {closed : Bool} {current : ArrayFrame} {stack : List ArrayFrame}
    {input : Bytes} (missing : current.remaining ≠ 0) :
    arrayLoop closed current stack input =
      (readItem closed current stack input).bind fun round unread =>
        match round with
        | .finished value => .done value unread
        | .goOn current stack => arrayLoop closed current stack unread := by
  rw [arrayLoop.eq_def, if_neg missing]
  split
  all_goals
    rename_i isRound
    rw [isRound]
    rfl

theorem arrayLoop_leaves
    (closed : Bool) (current : ArrayFrame) (stack : List ArrayFrame)
    (input : Bytes) :
    (arrayLoop closed current stack input).LeavesAtMost input.length := by
  induction current, stack, input using arrayLoop.induct closed with
  | case1 current input complete =>
      rw [arrayLoop_of_complete complete]
      exact Reading.leavesAtMost_done (le_refl _)
  | case2 current input complete parent stack ih =>
      rw [arrayLoop_of_complete complete]
      exact ih
  | case3 current stack input missing value unread ends =>
      rw [arrayLoop_of_missing missing, ends]
      exact Reading.leavesAtMost_done (readItem_finished ends)
  | case4 current stack input missing current' stack' unread goesOn ih =>
      rw [arrayLoop_of_missing missing, goesOn]
      exact ih.mono (readItem_goOn goesOn).le
  | case5 current stack input missing fails =>
      rw [arrayLoop_of_missing missing, fails]
      exact Reading.leavesAtMost_unexpectedEof
  | case6 current stack input missing panics =>
      rw [arrayLoop_of_missing missing, panics]
      exact Reading.leavesAtMost_panics
  | case7 current stack input missing waits =>
      rw [arrayLoop_of_missing missing, waits]
      exact Reading.leavesAtMost_waits

/-- `read_value_from_tag`. -/
def readValueFromTag (closed : Bool) (tag : UInt8) (input : Bytes) :
    Reading (Option RespValue) :=
  if tag = 42 then
    (readArrayLen closed input).bind fun len input =>
      if len < 0 then .done (some .null) input
      else beginArray len.toInt.toNat fun frame => arrayLoop closed frame [] input
  else (readSingleElement closed tag true input).map some

/-- `read_value`. -/
def readValue (closed : Bool) (input : Bytes) : Reading (Option RespValue) :=
  (readPrefix closed input).bind fun tag input =>
    match tag with
    | none => .done none input
    | some tag => readValueFromTag closed tag input

/-- A frame has at least one byte. -/
theorem readValue_reads
    {closed : Bool} {input unread : Bytes} {value : RespValue}
    (isRead : readValue closed input = .done (some value) unread) :
    unread.length < input.length := by
  cases input with
  | nil =>
      cases closed with
      | false => cases isRead
      | true => cases isRead
  | cons tag input =>
      have leaves : (readValue closed (tag :: input)).LeavesAtMost input.length := by
        rw [readValue, readPrefix, Reading.bind_done]
        dsimp only
        rw [readValueFromTag]
        split
        · refine ((readLineBytes_leaves closed input).map _).bind
            fun len unread few => ?_
          split
          · exact Reading.leavesAtMost_done few
          · unfold beginArray
            split
            · exact (arrayLoop_leaves closed _ [] unread).mono few
            · exact Reading.leavesAtMost_panics
        · exact (readSingleElement_leaves closed tag true input).map _
      exact Nat.lt_succ_of_le (leaves _ _ isRead)

/-! ## Arguments -/

/-- An item of a request as an argument. -/
def itemToArg : RespValue → Except String Bytes
  | .blob bytes => .ok bytes
  | .simple text => .ok (asBytes text)
  | .integer value => .ok (writeI64Bytes value)
  | _ => .error "ERR invalid array item"

/-- `value_to_args`. -/
def valueToArgs : RespValue → Except String (List Bytes)
  | .array items => items.mapM itemToArg
  | .simple text => .ok [asBytes text]
  | .blob bytes => .ok [bytes]
  | _ => .error "ERR invalid request"

end Cache
end MuonJs
