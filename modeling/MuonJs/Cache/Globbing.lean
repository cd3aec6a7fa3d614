import MuonJs.Cache.Glob
import MuonJs.Lib.Wildcard

/-!
# What a glob pattern matches

The meaning of a pattern, read from its start without positions, and the two
loops of the matcher compared with it.  They agree unless a class holds a range
whose end is quoted: the class loop goes on at the quoted byte and reads it a
second time.
-/

namespace MuonJs
namespace Cache
namespace Glob

open Wildcard

/-! ## The meaning of a pattern -/

/-- The byte a pattern starts with, or the one behind its backslash, and what
follows. -/
def unquote (byte : UInt8) : Bytes → UInt8 × Bytes
  | [] => (byte, [])
  | next :: rest => if byte = 92 then (next, rest) else (byte, next :: rest)

/-- The range a class member stands for, one byte long where no end is given,
and what follows. -/
def readMember (byte : UInt8) (rest : Bytes) : (UInt8 × UInt8) × Bytes :=
  match unquote byte rest with
  | (low, 45 :: next :: after) =>
      if next = 93 then ((low, low), 45 :: next :: after)
      else ((low, (unquote next after).1), (unquote next after).2)
  | (low, after) => ((low, low), after)

theorem length_unquote_le (byte : UInt8) (rest : Bytes) :
    (unquote byte rest).2.length ≤ rest.length := by
  cases rest with
  | nil => exact le_rfl
  | cons next rest =>
      rw [unquote]
      split
      · exact Nat.le_succ _
      · exact le_rfl

theorem length_readMember_le (byte : UInt8) (rest : Bytes) :
    (readMember byte rest).2.length ≤ rest.length := by
  have first := length_unquote_le byte rest
  unfold readMember
  split
  case h_1 low next after reads =>
    rw [reads] at first
    have second := length_unquote_le next after
    rw [List.length_cons, List.length_cons] at first
    split
    · rw [List.length_cons, List.length_cons]
      omega
    · dsimp only
      omega
  case h_2 low after _ reads =>
    rw [reads] at first
    exact first

/-- The members up to the closing bracket, and what follows it.  A bracket in
first place is a member. -/
def readMembers (leading : Bool) : Bytes → Option (List (UInt8 × UInt8) × Bytes)
  | [] => none
  | byte :: rest =>
      if leading = false ∧ byte = 93 then some ([], rest)
      else
        (readMembers false (readMember byte rest).2).map fun (members, after) =>
          ((readMember byte rest).1 :: members, after)
termination_by pattern => pattern.length
decreasing_by
  have shorter := length_readMember_le byte rest
  rw [List.length_cons]
  omega

/-- A class of bytes. -/
structure ByteClass where
  negated : Bool
  members : List (UInt8 × UInt8)

/-- Membership in a class. -/
def ByteClass.contains (set : ByteClass) (byte : UInt8) : Bool :=
  (set.members.any fun range => range.1 ≤ byte && byte ≤ range.2) != set.negated

/-- Whether the class whose bracket has been read is negated. -/
def isNegated (pattern : Bytes) : Bool :=
  pattern.head? = some 94 ∨ pattern.head? = some 33

/-- The members of the class whose bracket has been read. -/
def classBody (pattern : Bytes) : Bytes :=
  if isNegated pattern then pattern.tail else pattern

/-- The closed class whose bracket has been read, and what follows it. -/
def readClass (pattern : Bytes) : Option (ByteClass × Bytes) :=
  (readMembers true (classBody pattern)).map fun (members, after) =>
    (⟨isNegated pattern, members⟩, after)

/-- How a pattern starts. -/
def head : Bytes → Head UInt8 Bytes
  | [] => .done
  | byte :: rest =>
      if byte = 42 then .star rest
      else if byte = 63 then .one (fun _ => true) rest
      else if byte = 91 then
        match readClass rest with
        | some (set, after) => .one set.contains after
        | none => .one (· == 91) rest
      else .one (· == (unquote byte rest).1) (unquote byte rest).2

/-! ## Quoted range ends that do no harm -/

/-- Where a member is a range with a quoted end, reading that end a second time
changes nothing for a byte: it lies in the range or is another byte, it is read as
itself, and no second range starts with it. -/
def MemberSafe (ch byte : UInt8) (rest : Bytes) : Prop :=
  ∀ low high after, unquote byte rest = (low, 45 :: 92 :: high :: after) →
    (low ≤ high ∨ high ≠ ch) ∧ high ≠ 92 ∧ high ≠ 93 ∧
      ∀ next later, after = 45 :: next :: later → next = 93

/-- Every member of a class is safe, up to its closing bracket. -/
def MembersSafe (ch : UInt8) (leading : Bool) : Bytes → Prop
  | [] => True
  | byte :: rest =>
      leading = false ∧ byte = 93 ∨
        MemberSafe ch byte rest ∧ MembersSafe ch false (readMember byte rest).2
termination_by pattern => pattern.length
decreasing_by
  have shorter := length_readMember_le byte rest
  rw [List.length_cons]
  omega

/-- The class whose bracket has been read is safe for a byte. -/
def ClassSafe (ch : UInt8) (pattern : Bytes) : Prop := MembersSafe ch true (classBody pattern)

/-- The states of the matcher's loop on a text: its last star with the position in the
text that it was tried from, and the positions in text and pattern. -/
inductive Visits (text pattern : Bytes) : Option ℕ → ℕ → ℕ → ℕ → Prop
  | start : Visits text pattern none 0 0 0
  | star {star : Option ℕ} {starTi ti pi : ℕ} (visited : Visits text pattern star starTi ti pi)
      (moves : move text pattern ti pi = .star) :
      Visits text pattern (some (pi + 1)) ti ti (pi + 1)
  | advance {star : Option ℕ} {starTi ti pi step next : ℕ}
      (visited : Visits text pattern star starTi ti pi)
      (moves : move text pattern ti pi = .advance step next) :
      Visits text pattern star starTi (ti + step) next
  | again {starTi ti pi after : ℕ} (visited : Visits text pattern (some after) starTi ti pi)
      (moves : move text pattern ti pi = .mismatch) :
      Visits text pattern (some after) (starTi + 1) (starTi + 1) after

/-- Every class that the matcher reads on a text is safe for the byte that it is read
for. -/
def RunSafe (text pattern : Bytes) : Prop :=
  ∀ star starTi ti pi, Visits text pattern star starTi ti pi → ti < text.length →
    ∀ rest, pattern.drop pi = 91 :: rest → ClassSafe (byteAt text ti) rest

/-! ## Positions -/

theorem drop_eq_cons {bytes : Bytes} {i : ℕ} (inside : i < bytes.length) :
    bytes.drop i = byteAt bytes i :: bytes.drop (i + 1) := by
  rw [List.drop_eq_getElem_cons inside, byteAt, List.getD_eq_getElem _ _ inside]

/-- The source's position of a byte behind its backslash. -/
theorem unquote_drop (pattern : Bytes) (i : ℕ) :
    unquote (byteAt pattern i) (pattern.drop (i + 1)) =
      (byteAt pattern (unquoted pattern i), pattern.drop (unquoted pattern i + 1)) := by
  rw [unquoted]
  by_cases more : i + 1 < pattern.length
  · rw [drop_eq_cons more, unquote]
    by_cases quotes : byteAt pattern i = 92
    · rw [if_pos quotes, if_pos ⟨quotes, more⟩]
    · rw [if_neg quotes, if_neg (fun both => quotes both.1), drop_eq_cons more]
  · rw [List.drop_eq_nil_of_le (not_lt.mp more), unquote,
      if_neg (fun both => more both.2), List.drop_eq_nil_of_le (not_lt.mp more)]

theorem rangeEnd_eq (pattern : Bytes) (i : ℕ) :
    rangeEnd pattern i = byteAt pattern (unquoted pattern (i + 2)) := by
  rw [rangeEnd, unquoted]
  split
  · rfl
  · rfl

theorem isRange_iff {pattern : Bytes} {i : ℕ} :
    isRange pattern i = true ↔
      ∃ next after, pattern.drop (i + 1) = 45 :: next :: after ∧ next ≠ 93 := by
  rw [isRange, decide_eq_true_iff]
  constructor
  · rintro ⟨inside, dash, open_⟩
    refine ⟨byteAt pattern (i + 2), pattern.drop (i + 3), ?_, open_⟩
    rw [drop_eq_cons (by omega), dash, drop_eq_cons inside]
  · rintro ⟨next, after, isDrop, open_⟩
    have longer := congrArg List.length isDrop
    rw [List.length_drop, List.length_cons, List.length_cons] at longer
    rw [drop_eq_cons (by omega), drop_eq_cons (by omega)] at isDrop
    injection isDrop with dash isDrop
    injection isDrop with isNext isDrop
    exact ⟨by omega, dash, by rw [isNext]; exact open_⟩

/-- A member that is a range, by the source's positions. -/
theorem readMember_of_range
    {pattern : Bytes} {i : ℕ} (range : isRange pattern (unquoted pattern i) = true) :
    readMember (byteAt pattern i) (pattern.drop (i + 1)) =
      ((byteAt pattern (unquoted pattern i), rangeEnd pattern (unquoted pattern i)),
        pattern.drop (unquoted pattern (unquoted pattern i + 2) + 1)) := by
  rw [readMember, unquote_drop, rangeEnd_eq]
  generalize unquoted pattern i = u at range ⊢
  rw [isRange, decide_eq_true_iff] at range
  obtain ⟨inside, dash, open_⟩ := range
  have isDrop : pattern.drop (u + 1) =
      45 :: byteAt pattern (u + 2) :: pattern.drop (u + 3) := by
    rw [drop_eq_cons (by omega), dash, drop_eq_cons inside]
  rw [isDrop]
  split
  case h_1 low next after isPair =>
    injection isPair with isLow isRest
    injection isRest with _ isRest
    injection isRest with isNext isAfter
    rw [← isLow, ← isNext, ← isAfter, if_neg open_, unquote_drop]
  case h_2 low after other isPair =>
    injection isPair with _ isRest
    exact (other _ _ isRest.symm).elim

/-- A member that is a single byte, by the source's positions. -/
theorem readMember_of_single
    {pattern : Bytes} {i : ℕ} (single : isRange pattern (unquoted pattern i) = false) :
    readMember (byteAt pattern i) (pattern.drop (i + 1)) =
      ((byteAt pattern (unquoted pattern i), byteAt pattern (unquoted pattern i)),
        pattern.drop (unquoted pattern i + 1)) := by
  rw [readMember, unquote_drop]
  generalize unquoted pattern i = u at single ⊢
  split
  case h_1 low next after isPair =>
    injection isPair with isLow isDrop
    have closed : next = 93 := by
      by_contra open_
      rw [isRange_iff.mpr ⟨next, after, isDrop, open_⟩] at single
      cases single
    rw [if_pos closed, ← isLow, ← isDrop]
  case h_2 low after _ isPair =>
    injection isPair with isLow isDrop
    rw [isLow, isDrop]

/-! ## The class loop -/

/-- What the class loop answers for the members and the rest the meaning gives. -/
def loopAnswer (pattern : Bytes) (ch : UInt8) (neg matched : Bool)
    (reading : Option (List (UInt8 × UInt8) × Bytes)) : Option (Bool × ℕ) :=
  reading.map fun (members, after) =>
    ((matched || members.any fun range => range.1 ≤ ch && ch ≤ range.2) != neg,
      pattern.length - after.length)

/-- One more member in front of the others. -/
theorem loopAnswer_cons
    (pattern : Bytes) (ch : UInt8) (neg matched : Bool) (range : UInt8 × UInt8)
    (reading : Option (List (UInt8 × UInt8) × Bytes)) :
    loopAnswer pattern ch neg matched
        (reading.map fun (members, after) => (range :: members, after)) =
      loopAnswer pattern ch neg (matched || (range.1 ≤ ch && ch ≤ range.2)) reading := by
  cases reading with
  | none => rfl
  | some reading =>
      rw [loopAnswer, loopAnswer, Option.map_some, Option.map_some, Option.map_some]
      dsimp only
      rw [List.any_cons, Bool.or_assoc]

/-- A single byte is a range from itself to itself. -/
theorem eq_iff_between (low ch : UInt8) :
    (low == ch) = (low ≤ ch && ch ≤ low : Bool) := by
  rw [Bool.eq_iff_iff, beq_iff_eq, Bool.and_eq_true, decide_eq_true_iff, decide_eq_true_iff]
  constructor
  · rintro rfl
    exact ⟨UInt8.le_refl _, UInt8.le_refl _⟩
  · rintro ⟨below, above⟩
    exact UInt8.le_antisymm below above

/-- The end of a range lies in it already, or is not the byte. -/
theorem between_or_end {low high ch : UInt8} (harmless : low ≤ high ∨ high ≠ ch) :
    ((low ≤ ch && ch ≤ high) || (high ≤ ch && ch ≤ high) : Bool) =
      (low ≤ ch && ch ≤ high : Bool) := by
  rw [Bool.eq_iff_iff, Bool.or_eq_true, Bool.and_eq_true, Bool.and_eq_true, decide_eq_true_iff,
    decide_eq_true_iff, decide_eq_true_iff]
  constructor
  · rintro (inside | atEnd)
    · exact inside
    · rcases harmless with ordered | other
      · exact ⟨UInt8.le_trans ordered atEnd.1, atEnd.2⟩
      · exact absurd (UInt8.le_antisymm atEnd.1 atEnd.2) other
  · exact Or.inl

/-- A member that is neither quoted nor the start of a range. -/
theorem readMember_plain
    {byte : UInt8} {rest : Bytes} (plain : byte ≠ 92)
    (noRange : ∀ next after, rest = 45 :: next :: after → next = 93) :
    unquote byte rest = (byte, rest) ∧ readMember byte rest = ((byte, byte), rest) := by
  have itself : unquote byte rest = (byte, rest) := by
    cases rest with
    | nil => rfl
    | cons next after => rw [unquote, if_neg plain]
  refine ⟨itself, ?_⟩
  rw [readMember, itself]
  split
  case h_1 low next after isPair =>
    injection isPair with isLow isRest
    rw [if_pos (noRange next after isRest), isLow, isRest]
  case h_2 low after _ isPair =>
    injection isPair with isLow isRest
    rw [isLow, isRest]

/-- A quoted range end that is read again adds itself and is safe. -/
theorem readMembers_reread
    {high : UInt8} {after : Bytes} (ch : UInt8) (plain : high ≠ 92) (open_ : high ≠ 93)
    (noRange : ∀ next later, after = 45 :: next :: later → next = 93) :
    readMembers false (high :: after) =
        (readMembers false after).map (fun (members, rest) =>
          ((high, high) :: members, rest)) ∧
      (MembersSafe ch false after → MembersSafe ch false (high :: after)) := by
  obtain ⟨itself, single⟩ := readMember_plain plain noRange
  constructor
  · rw [readMembers, if_neg (fun both => open_ both.2), single]
  · intro safe
    rw [MembersSafe, single]
    refine Or.inr ⟨?_, safe⟩
    intro low again later reads
    rw [itself] at reads
    injection reads with _ isAfter
    exact absurd (noRange 92 _ isAfter) (by decide)

theorem length_sub_drop {bytes : Bytes} {i : ℕ} (inside : i ≤ bytes.length) :
    bytes.length - (bytes.drop i).length = i := by
  rw [List.length_drop]
  omega

/-- The class loop gives the membership and the position of the meaning. -/
theorem classLoop_eq
    {pattern : Bytes} {ch : UInt8} {neg : Bool} {start : ℕ} {matched : Bool} {i : ℕ}
    (ahead : start ≤ i) (safe : MembersSafe ch (decide (i = start)) (pattern.drop i)) :
    classLoop pattern ch neg start matched i =
      loopAnswer pattern ch neg matched
        (readMembers (decide (i = start)) (pattern.drop i)) := by
  induction matched, i using classLoop.induct pattern ch start with
  | case1 matched i inside closes =>
      have notLeading : decide (i = start) = false := decide_eq_false (by omega)
      have reading : readMembers (decide (i = start)) (pattern.drop i) =
          some ([], pattern.drop (i + 1)) := by
        rw [drop_eq_cons inside, closes.1, readMembers, if_pos ⟨notLeading, rfl⟩]
      rw [classLoop, if_pos inside, if_pos closes, reading, loopAnswer, Option.map_some]
      dsimp only
      rw [List.any_nil, Bool.or_false, length_sub_drop inside]
      cases neg <;> cases matched <;> rfl
  | case2 matched i inside stays range ih =>
      have staysOpen : ¬(decide (i = start) = false ∧ byteAt pattern i = 93) := by
        rintro ⟨notLeading, closing⟩
        exact stays ⟨closing, by have other := of_decide_eq_false notLeading; omega⟩
      have forward := le_unquoted pattern i
      have member := readMember_of_range range
      rw [drop_eq_cons inside, MembersSafe] at safe
      obtain ⟨memberSafe, restSafe⟩ := safe.resolve_left staysOpen
      rw [member] at restSafe
      have notLeading : decide (unquoted pattern i + 3 = start) = false :=
        decide_eq_false (by omega)
      rw [notLeading] at ih
      rw [classLoop, if_pos inside, if_neg stays, if_pos range, drop_eq_cons inside,
        readMembers, if_neg staysOpen, member, loopAnswer_cons]
      by_cases quotes : byteAt pattern (unquoted pattern i + 2) = 92 ∧
          unquoted pattern i + 3 < pattern.length
      · have quotedEnd : unquoted pattern (unquoted pattern i + 2) = unquoted pattern i + 3 :=
          if_pos quotes
        have isHigh : rangeEnd pattern (unquoted pattern i) =
            byteAt pattern (unquoted pattern i + 3) := if_pos quotes
        have reads : unquote (byteAt pattern i) (pattern.drop (i + 1)) =
            (byteAt pattern (unquoted pattern i), 45 :: 92 ::
              byteAt pattern (unquoted pattern i + 3) ::
                pattern.drop (unquoted pattern i + 4)) := by
          have dash := (of_decide_eq_true range).2.1
          rw [unquote_drop, drop_eq_cons (by omega), dash, drop_eq_cons (by omega), quotes.1,
            drop_eq_cons quotes.2]
        obtain ⟨harmless, plain, open_, single⟩ := memberSafe _ _ _ reads
        obtain ⟨reread, rereadSafe⟩ := readMembers_reread ch plain open_ single
        rw [quotedEnd] at restSafe ⊢
        rw [drop_eq_cons quotes.2, isHigh] at ih
        rw [isHigh, ih (by omega) (rereadSafe restSafe), reread, loopAnswer_cons,
          Bool.or_assoc, between_or_end harmless]
      · have plainEnd : unquoted pattern (unquoted pattern i + 2) = unquoted pattern i + 2 :=
          if_neg quotes
        rw [plainEnd] at restSafe ⊢
        exact ih (by omega) restSafe
  | case3 matched i inside stays noRange ih =>
      have staysOpen : ¬(decide (i = start) = false ∧ byteAt pattern i = 93) := by
        rintro ⟨notLeading, closing⟩
        exact stays ⟨closing, by have other := of_decide_eq_false notLeading; omega⟩
      have forward := le_unquoted pattern i
      have member := readMember_of_single (Bool.eq_false_iff.mpr noRange)
      rw [drop_eq_cons inside, MembersSafe] at safe
      obtain ⟨memberSafe, restSafe⟩ := safe.resolve_left staysOpen
      rw [member] at restSafe
      have notLeading : decide (unquoted pattern i + 1 = start) = false :=
        decide_eq_false (by omega)
      rw [notLeading] at ih
      rw [classLoop, if_pos inside, if_neg stays, if_neg noRange, drop_eq_cons inside,
        readMembers, if_neg staysOpen, member, loopAnswer_cons, ih (by omega) restSafe,
        eq_iff_between]
  | case4 matched i outside =>
      rw [classLoop, if_neg outside, List.drop_eq_nil_of_le (not_lt.mp outside), readMembers]
      rfl

theorem unquote_suffix (byte : UInt8) (rest : Bytes) : (unquote byte rest).2 <:+ rest := by
  cases rest with
  | nil => exact List.suffix_refl _
  | cons next rest =>
      rw [unquote]
      split
      · exact List.suffix_cons next rest
      · exact List.suffix_refl _

theorem readMember_suffix (byte : UInt8) (rest : Bytes) :
    (readMember byte rest).2 <:+ rest := by
  have first := unquote_suffix byte rest
  unfold readMember
  split
  case h_1 low next after reads =>
    rw [reads] at first
    split
    · exact first
    · refine (unquote_suffix next after).trans (List.IsSuffix.trans ?_ first)
      exact (List.suffix_cons next after).trans (List.suffix_cons 45 _)
  case h_2 low after _ reads =>
    rw [reads] at first
    exact first

/-- What follows a class is an end of the pattern. -/
theorem readMembers_suffix
    {leading : Bool} {pattern after : Bytes} {members : List (UInt8 × UInt8)}
    (reads : readMembers leading pattern = some (members, after)) :
    after <:+ pattern := by
  induction leading, pattern using readMembers.induct generalizing members with
  | case1 leading =>
      rw [readMembers] at reads
      cases reads
  | case2 leading byte rest closes =>
      rw [readMembers, if_pos closes] at reads
      cases reads
      exact List.suffix_cons _ _
  | case3 leading byte rest stays ih =>
      rw [readMembers, if_neg stays, Option.map_eq_some_iff] at reads
      obtain ⟨⟨others, behind⟩, restReads, isReading⟩ := reads
      cases isReading
      exact ((ih restReads).trans (readMember_suffix byte rest)).trans
        (List.suffix_cons byte rest)

theorem readClass_suffix
    {pattern after : Bytes} {set : ByteClass} (reads : readClass pattern = some (set, after)) :
    after <:+ pattern := by
  rw [readClass, Option.map_eq_some_iff] at reads
  obtain ⟨⟨members, behind⟩, membersRead, isReading⟩ := reads
  cases isReading
  refine (readMembers_suffix membersRead).trans ?_
  rw [classBody]
  split
  · exact List.tail_suffix pattern
  · exact List.suffix_refl pattern

/-- `glob_class_match` gives the membership in the class at a position, and the
position behind its bracket. -/
theorem classMatch_eq
    {pattern : Bytes} {i : ℕ} {ch : UInt8} (safe : ClassSafe ch (pattern.drop i)) :
    classMatch pattern i ch =
      (readClass (pattern.drop i)).map fun (set, after) =>
        (set.contains ch, pattern.length - after.length) := by
  have answer (reading : Option (List (UInt8 × UInt8) × Bytes)) (neg : Bool) :
      (reading.map fun (members, after) => (ByteClass.mk neg members, after)).map
          (fun (set, after) => (set.contains ch, pattern.length - after.length)) =
        loopAnswer pattern ch neg false reading := by
    cases reading with
    | none => rfl
    | some reading => rfl
  rw [classMatch, readClass, answer]
  by_cases outside : pattern.length ≤ i
  · have nothing : readMembers true (classBody []) = none := by
      rw [show classBody [] = [] from rfl, readMembers]
    rw [if_pos outside, List.drop_eq_nil_of_le outside, nothing]
    rfl
  rw [if_neg outside]
  have inside := not_le.mp outside
  dsimp only
  rw [ClassSafe, classBody] at safe
  rw [classBody]
  have sameSign : isNegated (pattern.drop i) =
      decide (byteAt pattern i = 94 ∨ byteAt pattern i = 33) := by
    rw [drop_eq_cons inside, isNegated]
    simp only [List.head?_cons, Option.some.injEq]
  rw [sameSign] at safe ⊢
  have loops (start : ℕ) (startSafe : MembersSafe ch true (pattern.drop start)) :
      classLoop pattern ch (decide (byteAt pattern i = 94 ∨ byteAt pattern i = 33))
          start false start =
        loopAnswer pattern ch (decide (byteAt pattern i = 94 ∨ byteAt pattern i = 33)) false
          (readMembers true (pattern.drop start)) := by
    have leading : decide (start = start) = true := decide_eq_true rfl
    have looped := @classLoop_eq pattern ch
      (decide (byteAt pattern i = 94 ∨ byteAt pattern i = 33)) start false start le_rfl
    rw [leading] at looped
    exact looped startSafe
  by_cases negated : byteAt pattern i = 94 ∨ byteAt pattern i = 33
  · rw [if_pos (decide_eq_true negated), drop_eq_cons inside, List.tail_cons] at safe ⊢
    rw [if_pos negated]
    exact loops (i + 1) safe
  · rw [if_neg (fun sign => negated (of_decide_eq_true sign))] at safe ⊢
    rw [if_neg negated]
    exact loops i safe

/-! ## The matcher -/

/-- What one move of the matcher says about the pattern and the text there. -/
def MoveTells (text pattern : Bytes) (ti pi : ℕ) : Move → Prop
  | .star => head (pattern.drop pi) = .star (pattern.drop (pi + 1))
  | .advance step next =>
      step = 1 ∧ ti < text.length ∧ next ≤ pattern.length ∧
        ∃ accepts, head (pattern.drop pi) = .one accepts (pattern.drop next) ∧
          accepts (byteAt text ti) = true
  | .answer true => head (pattern.drop pi) = .done ∧ ti = text.length
  | .answer false =>
      text.length ≤ ti ∧ ∃ accepts rest, head (pattern.drop pi) = .one accepts rest
  | .mismatch =>
      head (pattern.drop pi) = .done ∧ ti < text.length ∨
        ∃ accepts rest, head (pattern.drop pi) = .one accepts rest ∧
          (ti < text.length → accepts (byteAt text ti) = false)

theorem unquoted_lt {pattern : Bytes} {i : ℕ} (inside : i < pattern.length) :
    unquoted pattern i < pattern.length := by
  rw [unquoted]
  split
  case isTrue quotes => exact quotes.2
  case isFalse => exact inside

/-- What the meaning reads at a bracket. -/
theorem head_bracket {pattern : Bytes} {pi : ℕ} (inside : pi < pattern.length)
    (bracket : byteAt pattern pi = 91) :
    head (pattern.drop pi) =
      match readClass (pattern.drop (pi + 1)) with
      | some (set, after) => .one set.contains after
      | none => .one (· == 91) (pattern.drop (pi + 1)) := by
  rw [drop_eq_cons inside, bracket]
  rfl

/-- The move at a bracket, where the text goes on. -/
theorem move_tells_bracket
    {text pattern : Bytes} {ti pi : ℕ} (inside : pi < pattern.length) (more : ti < text.length)
    (bracket : byteAt pattern pi = 91)
    (safe : ClassSafe (byteAt text ti) (pattern.drop (pi + 1))) :
    MoveTells text pattern ti pi (move text pattern ti pi) := by
  have isHead := head_bracket inside bracket
  rw [move, if_pos inside, bracket, if_neg (by decide), if_neg (by decide), if_pos rfl,
    if_neg (not_le.mpr more), classMatch_eq safe]
  cases reads : readClass (pattern.drop (pi + 1)) with
  | none =>
      rw [reads] at isHead
      rw [Option.map_none]
      dsimp only
      split
      case isTrue same => exact ⟨rfl, more, inside, _, isHead, beq_iff_eq.mpr same⟩
      case isFalse other =>
        exact Or.inr ⟨_, _, isHead, fun _ => beq_eq_false_iff_ne.mpr other⟩
  | some reading =>
      obtain ⟨set, after⟩ := reading
      have isEnd : pattern.drop (pattern.length - after.length) = after :=
        (List.suffix_iff_eq_drop.mp
          ((readClass_suffix reads).trans (List.drop_suffix _ _))).symm
      have isOne : head (pattern.drop pi) =
          .one set.contains (pattern.drop (pattern.length - after.length)) := by
        rw [isHead, reads, isEnd]
      rw [Option.map_some]
      dsimp only
      split
      case isTrue accepted => exact ⟨rfl, more, Nat.sub_le _ _, _, isOne, accepted⟩
      case isFalse rejected =>
        exact Or.inr ⟨_, _, isOne, fun _ => Bool.eq_false_iff.mpr rejected⟩

theorem move_tells
    {text pattern : Bytes} {ti pi : ℕ} (inText : ti ≤ text.length)
    (safe : ti < text.length → ∀ rest, pattern.drop pi = 91 :: rest →
      ClassSafe (byteAt text ti) rest) :
    MoveTells text pattern ti pi (move text pattern ti pi) := by
  by_cases inside : pi < pattern.length
  · have isDrop := drop_eq_cons inside
    by_cases star : byteAt pattern pi = 42
    · have isStar : move text pattern ti pi = .star := by
        rw [move, if_pos inside, if_pos star]
      rw [isStar, MoveTells, isDrop, head, if_pos star]
    by_cases any : byteAt pattern pi = 63
    · have isOne : head (pattern.drop pi) = .one (fun _ => true) (pattern.drop (pi + 1)) := by
        rw [isDrop, head, if_neg star, if_pos any]
      by_cases ended : text.length ≤ ti
      · have moves : move text pattern ti pi = .answer false := by
          rw [move, if_pos inside, if_neg star, if_pos any, if_pos ended]
        rw [moves]
        exact ⟨ended, _, _, isOne⟩
      · have moves : move text pattern ti pi = .advance 1 (pi + 1) := by
          rw [move, if_pos inside, if_neg star, if_pos any, if_neg ended]
        rw [moves]
        exact ⟨rfl, not_le.mp ended, inside, _, isOne, rfl⟩
    by_cases bracket : byteAt pattern pi = 91
    · by_cases more : ti < text.length
      · exact move_tells_bracket inside more bracket (safe more _ (by rw [isDrop, bracket]))
      · have ended := not_lt.mp more
        have moves : move text pattern ti pi = .answer false := by
          rw [move, if_pos inside, if_neg star, if_neg any, if_pos bracket, if_pos ended]
        rw [moves, MoveTells, head_bracket inside bracket]
        refine ⟨ended, ?_⟩
        cases readClass (pattern.drop (pi + 1)) with
        | none => exact ⟨_, _, rfl⟩
        | some reading => exact ⟨_, _, rfl⟩
    · have isOne : head (pattern.drop pi) =
          .one (· == byteAt pattern (unquoted pattern pi))
            (pattern.drop (unquoted pattern pi + 1)) := by
        rw [isDrop, head, if_neg star, if_neg any, if_neg bracket, unquote_drop]
      by_cases same : ti < text.length ∧
          byteAt pattern (unquoted pattern pi) = byteAt text ti
      · have moves : move text pattern ti pi = .advance 1 (unquoted pattern pi + 1) := by
          rw [move, if_pos inside, if_neg star, if_neg any, if_neg bracket, if_pos same]
        rw [moves]
        exact ⟨rfl, same.1, unquoted_lt inside, _, isOne, beq_iff_eq.mpr same.2.symm⟩
      · have moves : move text pattern ti pi = .mismatch := by
          rw [move, if_pos inside, if_neg star, if_neg any, if_neg bracket, if_neg same]
        rw [moves]
        refine Or.inr ⟨_, _, isOne, fun more => ?_⟩
        exact beq_eq_false_iff_ne.mpr fun equal => same ⟨more, equal.symm⟩
  · have isDone : head (pattern.drop pi) = .done := by
      rw [List.drop_eq_nil_of_le (not_lt.mp inside), head]
    by_cases ended : ti = text.length
    · have moves : move text pattern ti pi = .answer true := by
        rw [move, if_neg inside, if_pos ended]
      rw [moves]
      exact ⟨isDone, ended⟩
    · have moves : move text pattern ti pi = .mismatch := by
        rw [move, if_neg inside, if_neg ended]
      rw [moves]
      exact Or.inl ⟨isDone, by omega⟩

section

variable {text pattern : Bytes} {star : Option ℕ} {starTi ti pi : ℕ} {behind : starTi ≤ ti}

theorem matchLoop_star (inText : ti ≤ text.length) (moves : move text pattern ti pi = .star) :
    matchLoop text pattern star starTi ti pi behind =
      matchLoop text pattern (some (pi + 1)) ti ti (pi + 1) le_rfl := by
  conv_lhs => rw [matchLoop.eq_def, if_pos inText]
  split <;> rename_i other <;> rw [moves] at other <;> cases other

theorem matchLoop_advance
    {step next : ℕ} (inText : ti ≤ text.length)
    (moves : move text pattern ti pi = .advance step next) :
    matchLoop text pattern star starTi ti pi behind =
      matchLoop text pattern star starTi (ti + step) next (Nat.le_add_right_of_le behind) := by
  conv_lhs => rw [matchLoop.eq_def, if_pos inText]
  split <;> rename_i other <;> rw [moves] at other <;> cases other
  rfl

theorem matchLoop_answer
    {result : Bool} (inText : ti ≤ text.length)
    (moves : move text pattern ti pi = .answer result) :
    matchLoop text pattern star starTi ti pi behind = result := by
  conv_lhs => rw [matchLoop.eq_def, if_pos inText]
  split <;> rename_i other <;> rw [moves] at other <;> cases other
  rfl

theorem matchLoop_mismatch
    (inText : ti ≤ text.length) (moves : move text pattern ti pi = .mismatch) :
    matchLoop text pattern star starTi ti pi behind =
      star.elim false fun after =>
        matchLoop text pattern star (starTi + 1) (starTi + 1) after le_rfl := by
  conv_lhs => rw [matchLoop.eq_def, if_pos inText]
  split <;> rename_i other <;> rw [moves] at other <;> cases other
  cases star with
  | none => rfl
  | some after => rfl

/-- After a mismatch the pattern does not match what is left of the text. -/
theorem not_matches_of_mismatch
    (tells : MoveTells text pattern ti pi .mismatch) :
    ¬Matches head (pattern.drop pi) (text.drop ti) := by
  intro matched
  rcases tells with ⟨isDone, more⟩ | ⟨accepts, rest, isOne, rejects⟩
  · have ended := (matches_done_iff isDone _).mp matched
    rw [List.drop_eq_nil_iff] at ended
    omega
  · obtain ⟨item, later, isLater, accepted, -⟩ := (matches_one_iff isOne _).mp matched
    by_cases more : ti < text.length
    · rw [drop_eq_cons more] at isLater
      injection isLater with isItem
      rw [← isItem, rejects more] at accepted
      cases accepted
    · rw [List.drop_eq_nil_of_le (not_lt.mp more)] at isLater
      cases isLater

/-- A star matches from here what follows it matches from here or later. -/
theorem matches_star_later
    (isStar : head (pattern.drop pi) = .star (pattern.drop (pi + 1)))
    (inText : ti ≤ text.length) :
    Matches head (pattern.drop pi) (text.drop ti) ↔
      ti ≤ text.length ∧ Matches head (pattern.drop (pi + 1)) (text.drop ti) ∨
        ∃ after, some (pi + 1) = some after ∧ ∃ later, ti < later ∧ later ≤ text.length ∧
          Matches head (pattern.drop after) (text.drop later) := by
  rw [matches_star_iff isStar, List.length_drop]
  constructor
  · rintro ⟨skip, inside, matched⟩
    rw [List.drop_drop] at matched
    cases skip with
    | zero => exact Or.inl ⟨inText, matched⟩
    | succ skip => exact Or.inr ⟨pi + 1, rfl, ti + (skip + 1), by omega, by omega, matched⟩
  · rintro (⟨-, matched⟩ | ⟨after, isAfter, later, ahead, inside, matched⟩)
    · exact ⟨0, Nat.zero_le _, matched⟩
    · cases isAfter
      refine ⟨later - ti, by omega, ?_⟩
      rw [List.drop_drop, Nat.add_sub_cancel' ahead.le]
      exact matched

/-- The matcher finds a match from its present positions, or from a later start
behind its last star, exactly when there is one. -/
theorem matchLoop_iff
    (safe : RunSafe text pattern) (visited : Visits text pattern star starTi ti pi)
    (afterStar : ∀ after, star = some after →
      Singles head (pattern.drop after) (ti - starTi) (pattern.drop pi)) :
    matchLoop text pattern star starTi ti pi behind = true ↔
      ti ≤ text.length ∧ Matches head (pattern.drop pi) (text.drop ti) ∨
        ∃ after, star = some after ∧ ∃ later, starTi < later ∧ later ≤ text.length ∧
          Matches head (pattern.drop after) (text.drop later) := by
  induction star, starTi, ti, pi, behind using matchLoop.induct text pattern with
  | case1 star starTi ti pi behind inText moves ih =>
      have isStar := move_tells inText (safe _ _ _ _ visited)
      rw [moves, MoveTells] at isStar
      have fromStar : ∀ after, some (pi + 1) = some after →
          Singles head (pattern.drop after) (ti - ti) (pattern.drop (pi + 1)) := by
        intro after isAfter
        cases isAfter
        rw [Nat.sub_self]
        exact .start
      have atStar := ih (visited.star moves) fromStar
      rw [matchLoop_star inText moves, atStar, ← matches_star_later isStar inText]
      constructor
      · exact fun matched => Or.inl ⟨inText, matched⟩
      · rintro (⟨-, matched⟩ | ⟨after, isAfter, later, ahead, -, matched⟩)
        · exact matched
        · have overtaken :=
            (afterStar after isAfter).overtake isStar ahead.le matched
          rw [Nat.add_sub_cancel' behind] at overtaken
          exact overtaken
  | case2 star starTi ti pi behind inText step next moves ih =>
      have told := move_tells inText (safe _ _ _ _ visited)
      rw [moves] at told
      obtain ⟨rfl, more, inside, accepts, isOne, accepted⟩ := told
      have restAfterStar : ∀ after, star = some after →
          Singles head (pattern.drop after) (ti + 1 - starTi) (pattern.drop next) := by
        intro after isAfter
        rw [Nat.sub_add_comm behind]
        exact (afterStar after isAfter).next isOne
      have oneStep : Matches head (pattern.drop pi) (text.drop ti) ↔
          Matches head (pattern.drop next) (text.drop (ti + 1)) := by
        rw [matches_one_iff isOne, drop_eq_cons more]
        constructor
        · rintro ⟨item, later, isLater, -, matched⟩
          injection isLater with _ isLater
          rw [isLater]
          exact matched
        · exact fun matched => ⟨_, _, rfl, accepted, matched⟩
      rw [matchLoop_advance inText moves, ih (visited.advance moves) restAfterStar, oneStep]
      exact or_congr_left (and_congr_left fun _ => ⟨fun _ => inText, fun _ => more⟩)
  | case3 star starTi ti pi behind inText result moves =>
      have told := move_tells inText (safe _ _ _ _ visited)
      rw [moves] at told
      rw [matchLoop_answer inText moves]
      cases result with
      | true =>
          obtain ⟨isDone, ended⟩ := told
          refine ⟨fun _ => Or.inl ⟨inText, ?_⟩, fun _ => rfl⟩
          rw [ended, List.drop_length]
          exact .done isDone
      | false =>
          obtain ⟨ended, accepts, rest, isOne⟩ := told
          constructor
          · intro impossible
            cases impossible
          · rintro (⟨-, matched⟩ | ⟨after, isAfter, later, ahead, -, matched⟩)
            · rw [List.drop_eq_nil_of_le ended, matches_one_iff isOne] at matched
              obtain ⟨item, later, isLater, -⟩ := matched
              cases isLater
            · refine absurd matched ((afterStar after isAfter).exhausted isOne ahead.le ?_)
              omega
  | case4 starTi ti pi behind inText moves after ih =>
      have told := move_tells inText (safe _ _ _ _ visited)
      rw [moves] at told
      have fails := not_matches_of_mismatch told
      have again : ∀ other, some after = some other →
          Singles head (pattern.drop other) (starTi + 1 - (starTi + 1)) (pattern.drop after) := by
        intro other isOther
        cases isOther
        rw [Nat.sub_self]
        exact .start
      rw [matchLoop_mismatch inText moves, Option.elim_some, ih (visited.again moves) again]
      constructor
      · rintro (⟨inside, matched⟩ | ⟨other, isOther, later, ahead, inside, matched⟩)
        · exact Or.inr ⟨after, rfl, starTi + 1, Nat.lt_succ_self _, inside, matched⟩
        · exact Or.inr ⟨other, isOther, later, by omega, inside, matched⟩
      · rintro (⟨-, matched⟩ | ⟨other, isOther, later, ahead, inside, matched⟩)
        · exact absurd matched fails
        · cases isOther
          rcases Nat.eq_or_lt_of_le ahead with next | further
          · rw [← next] at inside matched
            exact Or.inl ⟨inside, matched⟩
          · exact Or.inr ⟨after, rfl, later, further, inside, matched⟩
  | case5 starTi ti pi behind inText moves =>
      have told := move_tells inText (safe _ _ _ _ visited)
      rw [moves] at told
      rw [matchLoop_mismatch inText moves, Option.elim_none]
      constructor
      · intro impossible
        cases impossible
      · rintro (⟨-, matched⟩ | ⟨after, isAfter, -⟩)
        · exact absurd matched (not_matches_of_mismatch told)
        · cases isAfter
  | case6 star starTi ti pi behind outside =>
      have notEnd : (ti == text.length) = false :=
        beq_eq_false_iff_ne.mpr (fun ended => outside ended.le)
      rw [matchLoop.eq_def, if_neg outside, notEnd, Bool.and_false]
      constructor
      · intro impossible
        cases impossible
      · rintro (⟨inText, -⟩ | ⟨after, isAfter, later, ahead, inText, matched⟩)
        · exact absurd inText outside
        · have enough := ((afterStar after isAfter).matched_rest matched).1
          rw [List.length_drop] at enough
          omega

end

/-- `Shard::glob_match` answers whether the pattern matches the whole text. -/
theorem globMatch_iff {text pattern : Bytes} (safe : RunSafe text pattern) :
    globMatch text pattern = true ↔ Matches head pattern text := by
  have noStar : ∀ after, (none : Option ℕ) = some after →
      Singles head (pattern.drop after) (0 - 0) (pattern.drop 0) := by
    intro after isStar
    cases isStar
  rw [globMatch, matchLoop_iff safe .start noStar]
  constructor
  · rintro (⟨-, matched⟩ | ⟨after, isStar, -⟩)
    · exact matched
    · cases isStar
  · exact fun matched => Or.inl ⟨Nat.zero_le _, matched⟩

/-- The matcher gives the meaning of a pattern on every text on which the classes it
reads are safe, and the class reader gives the meaning of every class that is safe. -/
theorem glob_exact (text pattern : Bytes) :
    (RunSafe text pattern → (globMatch text pattern = true ↔ Matches head pattern text)) ∧
      ∀ i ch, ClassSafe ch (pattern.drop i) →
        classMatch pattern i ch =
          (readClass (pattern.drop i)).map fun (set, after) =>
            (set.contains ch, pattern.length - after.length) :=
  ⟨globMatch_iff, fun _ _ => classMatch_eq⟩

/-- A class with a plain range is safe. -/
theorem classSafe_range (ch : UInt8) : ClassSafe ch [97, 45, 99, 93] := by
  have plainRange : MemberSafe ch 97 [45, 99, 93] := by
    intro low high after reads
    rw [show unquote 97 [45, 99, 93] = (97, [45, 99, 93]) from rfl] at reads
    simp at reads
  have restOfRange : (readMember 97 [45, 99, 93]).2 = [93] := rfl
  rw [ClassSafe, show classBody [97, 45, 99, 93] = [97, 45, 99, 93] from rfl, MembersSafe,
    restOfRange, MembersSafe]
  exact Or.inr ⟨plainRange, Or.inl ⟨rfl, rfl⟩⟩

/-- The pattern `[a-c]` against the text `b`. -/
theorem glob_exact_range :
    (globMatch [98] [91, 97, 45, 99, 93] = true ↔ Matches head [91, 97, 45, 99, 93] [98]) ∧
      classMatch [91, 97, 45, 99, 93] 1 98 =
        (readClass [97, 45, 99, 93]).map fun (set, after) =>
          (set.contains 98, 5 - after.length) := by
  have safe : RunSafe [98] [91, 97, 45, 99, 93] := by
    intro star starTi ti pi _ _ rest isDrop
    match pi with
    | 0 =>
        cases isDrop
        exact classSafe_range _
    | 1 | 2 | 3 | 4 | _ + 5 => simp at isDrop
  exact ⟨(glob_exact [98] [91, 97, 45, 99, 93]).1 safe,
    (glob_exact [98] [91, 97, 45, 99, 93]).2 1 98 (classSafe_range 98)⟩

/-- The class of `[z-\a]` holds no byte; its reader finds `a` in it, and the
matcher takes the text `a`. -/
theorem glob_not_always_exact :
    (¬∀ (pattern : Bytes) (i : ℕ) (ch : UInt8),
      classMatch pattern i ch =
        (readClass (pattern.drop i)).map fun (set, after) =>
          (set.contains ch, pattern.length - after.length)) ∧
      ¬∀ text pattern : Bytes, globMatch text pattern = true ↔ Matches head pattern text := by
  have code : classMatch [91, 122, 45, 92, 97, 93] 1 97 = some (true, 6) := by
    simp [classMatch, byteAt, classLoop, isRange, unquoted, rangeEnd]
  have meaning : readClass [122, 45, 92, 97, 93] = some (⟨false, [(122, 97)]⟩, []) := by
    simp [readClass, classBody, isNegated, readMembers, readMember, unquote]
  constructor
  · intro exact_
    have claimed := exact_ [91, 122, 45, 92, 97, 93] 1 97
    rw [code, show List.drop 1 ([91, 122, 45, 92, 97, 93] : Bytes) = [122, 45, 92, 97, 93] from rfl,
      meaning] at claimed
    exact absurd claimed (by decide)
  · intro exact_
    have taken : move [97] [91, 122, 45, 92, 97, 93] 0 0 = .advance 1 6 := by
      rw [move, if_pos (by decide), if_neg (by decide), if_neg (by decide), if_pos (by decide),
        if_neg (by decide), show byteAt [97] 0 = 97 from rfl, code]
      rfl
    have ended : move [97] [91, 122, 45, 92, 97, 93] (0 + 1) 6 = .answer true := rfl
    have matched : globMatch [97] [91, 122, 45, 92, 97, 93] = true := by
      rw [globMatch, matchLoop_advance (Nat.zero_le _) taken,
        matchLoop_answer (by decide) ended]
    have isOne : head [91, 122, 45, 92, 97, 93] =
        .one (ByteClass.mk false [(122, 97)]).contains [] := by
      rw [head, meaning]
      rfl
    obtain ⟨item, later, isLater, accepted, -⟩ :=
      (matches_one_iff isOne _).mp ((exact_ _ _).mp matched)
    cases isLater
    exact absurd accepted (by decide)

end Glob
end Cache
end MuonJs
