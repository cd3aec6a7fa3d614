import MuonJs.Script.JsonGrammar

/-!
# What the reader accepts

The reader decides every text with as much fuel as the text is long, and what it
accepts is a JSON text.  Neither depends on the heap: a value that cannot be made
ends the run.
-/

namespace MuonJs
namespace Script

open Cache (Bytes F64 asBytes fromUtf8 parseF64 isAsciiDigit encode IsUtf8)

namespace Json

theorem Parsed.andThen_eq_some {α β : Type} {outcome : Parsed α} {next : α → Parsed β} {result : β}
    (isDone : outcome.andThen next = some (some result)) :
    ∃ value, outcome = some (some value) ∧ next value = some (some result) := by
  cases outcome with
  | none => cases isDone
  | some read =>
      cases read with
      | none => cases isDone
      | some value => exact ⟨value, rfl, isDone⟩

/-! ## Texts that are accepted -/

theorem IsBlank.trans {input middle rest : Bytes} (first : IsBlank input middle)
    (second : IsBlank middle rest) : IsBlank input rest := by
  induction first with
  | none => exact second
  | more isSpace _ ih => exact .more isSpace (ih second)

theorem IsElements.blank {input start rest : Bytes} {items : List Datum}
    (blank : IsBlank input start) (elements : IsElements start items rest) :
    IsElements input items rest := by
  cases elements with
  | last before value behind => exact .last (blank.trans before) value behind
  | more before value behind elements => exact .more (blank.trans before) value behind elements

theorem IsMembers.blank {input start rest : Bytes} {members : List (List Char × Datum)}
    (blank : IsBlank input start) (isMembers : IsMembers start members rest) :
    IsMembers input members rest := by
  cases isMembers with
  | last beforeName chars beforeColon before value behind =>
      exact .last (blank.trans beforeName) chars beforeColon before value behind
  | more beforeName chars beforeColon before value behind isMembers =>
      exact .more (blank.trans beforeName) chars beforeColon before value behind isMembers

/-- What the reader accepts is a value, and text is left behind it. -/
def Sound (read : JsonReader) : Prop :=
  ∀ {ctx : Context} {input : Bytes} {val : JSValue} {rest : Bytes} {after : Context},
    IsUtf8 input → read ctx input = some (some (val, rest, after)) →
    ∃ start datum, IsBlank input start ∧ IsValue start datum rest ∧ IsUtf8 rest

section Sound

variable {read : JsonReader} (sound : Sound read)

include sound

/-- The loop over the elements accepts elements. -/
theorem parseElements_sound {arr : JSValue} : ∀ {turns : ℕ} {ctx : Context} {input rest : Bytes}
    {after : Context}, IsUtf8 input →
    parseElements read arr turns ctx input = some (some (rest, after)) →
    ∃ items, IsElements input items rest ∧ IsUtf8 rest := by
  intro turns
  induction turns with
  | zero =>
      intro ctx input rest after _ isRead
      cases isRead
  | succ turns ih =>
      intro ctx input rest after isText isRead
      rw [parseElements_succ] at isRead
      obtain ⟨⟨val, left, middle⟩, isFirst, isRead⟩ := Parsed.andThen_eq_some isRead
      obtain ⟨start, datum, before, value, isLeft⟩ := sound isText isFirst
      have behind := isBlank_skipWs left
      have isBehind := behind.isUtf8 isLeft
      rw [afterElement] at isRead
      split at isRead
      · cases isRead
      · split at isRead
        · rename_i next isNext
          rw [isNext] at behind isBehind
          have blank := isBlank_skipWs next
          have isNextText := isUtf8_of_cons isBehind (by decide)
          obtain ⟨items, elements, isRest⟩ := ih (blank.isUtf8 isNextText) isRead
          exact ⟨_, .more before value behind (elements.blank blank), isRest⟩
        · rename_i next isNext
          cases isRead
          rw [isNext] at behind isBehind
          exact ⟨_, .last before value behind, isUtf8_of_cons isBehind (by decide)⟩
        · cases isRead

/-- The loop over the members accepts members. -/
theorem parseMembers_sound {engine : Engine} {obj : JSValue} : ∀ {turns : ℕ} {ctx : Context}
    {input rest : Bytes} {after : Context}, IsUtf8 input →
    parseMembers engine read obj turns ctx input = some (some (rest, after)) →
    ∃ members, IsMembers input members rest ∧ IsUtf8 rest := by
  intro turns
  induction turns with
  | zero =>
      intro ctx input rest after _ isRead
      cases isRead
  | succ turns ih =>
      intro ctx input rest after isText isRead
      rw [parseMembers] at isRead
      have beforeName := isBlank_skipWs input
      have isNameText := beforeName.isUtf8 isText
      split at isRead
      · cases isRead
      · rename_i key left isKey
        unfold parseStringBytes at isKey
        split at isKey
        · rename_i name isName
          rw [isName] at beforeName isNameText
          obtain ⟨text, -, chars, isLeft⟩ := parseStringLoop_sound name []
            (fun _ isByte => by cases isByte) (isUtf8_of_cons isNameText (by decide)) isKey
          split at isRead
          · cases isRead
          · have beforeColon := isBlank_skipWs left
            have isColonText := beforeColon.isUtf8 isLeft
            split at isRead
            · rename_i colon isColon
              rw [isColon] at beforeColon isColonText
              obtain ⟨⟨val, left, middle⟩, isFirst, isRead⟩ := Parsed.andThen_eq_some isRead
              obtain ⟨start, datum, before, value, isBehindText⟩ :=
                sound (isUtf8_of_cons isColonText (by decide)) isFirst
              have behind := isBlank_skipWs left
              have isBehind := behind.isUtf8 isBehindText
              dsimp only at isRead
              split at isRead
              · cases isRead
              · split at isRead
                · rename_i next isNext
                  rw [isNext] at behind isBehind
                  obtain ⟨members, isMembers, isRest⟩ :=
                    ih (isUtf8_of_cons isBehind (by decide)) isRead
                  exact ⟨_, .more beforeName chars beforeColon before value behind isMembers,
                    isRest⟩
                · rename_i next isNext
                  cases isRead
                  rw [isNext] at behind isBehind
                  exact ⟨_, .last beforeName chars beforeColon before value behind,
                    isUtf8_of_cons isBehind (by decide)⟩
                · cases isRead
            · cases isRead
        · cases isKey

end Sound

theorem parseLiteral_sound {literal : String} {val found : JSValue} {ctx after : Context}
    {input rest : Bytes} (isRead : parseLiteral literal val ctx input = some (found, rest, after)) :
    input = asBytes literal ++ rest := by
  rw [parseLiteral] at isRead
  split at isRead
  · rename_i isPrefix
    cases isRead
    exact (List.prefix_iff_eq_append.mp (List.isPrefixOf_iff_prefix.mp isPrefix)).symm
  · cases isRead

/-- What `parse_value` accepts is a value. -/
theorem parseValue_sound (engine : Engine) (fuel : ℕ) : Sound (parseValue engine fuel) := by
  induction fuel with
  | zero =>
      intro ctx input val rest after _ isRead
      cases isRead
  | succ fuel ih =>
      intro ctx input val rest after isText isRead
      have before := isBlank_skipWs input
      have isStart := before.isUtf8 isText
      rw [parseValue] at isRead
      generalize skipWs input = start at before isStart isRead
      refine ⟨start, ?_⟩
      suffices isValue : ∃ datum, IsValue start datum rest ∧ IsUtf8 rest by
        obtain ⟨datum, value, isRest⟩ := isValue
        exact ⟨datum, before, value, isRest⟩
      split at isRead
      · rename_i tail
        have isTail := isUtf8_of_cons isStart (by decide)
        have behind := isBlank_skipWs tail
        have isBehind := behind.isUtf8 isTail
        split at isRead
        · cases isRead
        · split at isRead
          · rename_i next isNext
            cases isRead
            rw [isNext] at behind isBehind
            exact ⟨_, .emptyObject behind, isUtf8_of_cons isBehind (by decide)⟩
          · obtain ⟨⟨left, middle⟩, isLoop, isRead⟩ := Parsed.andThen_eq_some isRead
            cases isRead
            obtain ⟨members, isMembers, isRest⟩ := parseMembers_sound ih isBehind isLoop
            exact ⟨_, .object (isMembers.blank behind), isRest⟩
      · rename_i tail
        have isTail := isUtf8_of_cons isStart (by decide)
        have behind := isBlank_skipWs tail
        have isBehind := behind.isUtf8 isTail
        split at isRead
        · cases isRead
        · split at isRead
          · rename_i next isNext
            cases isRead
            rw [isNext] at behind isBehind
            exact ⟨_, .emptyArray behind, isUtf8_of_cons isBehind (by decide)⟩
          · obtain ⟨⟨left, middle⟩, isLoop, isRead⟩ := Parsed.andThen_eq_some isRead
            cases isRead
            obtain ⟨items, elements, isRest⟩ := parseElements_sound ih isBehind isLoop
            exact ⟨_, .array (elements.blank behind), isRest⟩
      · rename_i tail
        have isTail := isUtf8_of_cons isStart (by decide)
        obtain ⟨⟨bytes, left⟩, isLoop, isRead⟩ := Option.bind_eq_some_iff.mp (Option.some.inj isRead)
        obtain ⟨text, -, chars, isLeft⟩ := parseStringLoop_sound tail []
          (fun _ isByte => by cases isByte) isTail isLoop
        dsimp only at isRead
        split at isRead
        · cases isRead
          exact ⟨_, .string chars, isLeft⟩
        · cases isRead
      · have isLiteral := parseLiteral_sound (Option.some.inj isRead)
        rw [isLiteral] at isStart ⊢
        exact ⟨_, .isTrue rest, isUtf8_of_isVisible (isVisible_of_graphic rfl) isStart⟩
      · have isLiteral := parseLiteral_sound (Option.some.inj isRead)
        rw [isLiteral] at isStart ⊢
        exact ⟨_, .isFalse rest, isUtf8_of_isVisible (isVisible_of_graphic rfl) isStart⟩
      · have isLiteral := parseLiteral_sound (Option.some.inj isRead)
        rw [isLiteral] at isStart ⊢
        exact ⟨_, .null rest, isUtf8_of_isVisible (isVisible_of_graphic rfl) isStart⟩
      · split at isRead
        · obtain ⟨⟨text, left⟩, isTaken, isRead⟩ :=
            Option.bind_eq_some_iff.mp (Option.some.inj isRead)
          obtain ⟨number, -, same⟩ := Option.map_eq_some_iff.mp isRead
          cases same
          obtain ⟨isInput, negative, magnitude, isNumber⟩ := takeNumber_sound isTaken
          rw [isInput] at isStart ⊢
          exact ⟨_, .number isNumber rest, isUtf8_of_isVisible isNumber.isVisible.1 isStart⟩
        · cases isRead
      · cases isRead

/-! ## Texts that are decided -/

/-- There is an outcome, and what is accepted leaves less than so many bytes. -/
def Decided {α : Type} (outcome : Parsed α) (left : α → Bytes) (length : ℕ) : Prop :=
  ∃ result, outcome = some result ∧ ∀ value, result = some value → (left value).length < length

namespace Decided

variable {α β : Type} {outcome : Parsed α} {left : α → Bytes} {length : ℕ}

theorem rejected : Decided (some none) left length :=
  ⟨none, rfl, fun _ same => by cases same⟩

theorem accepted {value : α} (shorter : (left value).length < length) :
    Decided (some (some value)) left length :=
  ⟨some value, rfl, fun other same => by cases same; exact shorter⟩

theorem andThen {next : α → Parsed β} {leftNext : β → Bytes} {lengthNext : ℕ}
    (decided : Decided outcome left length)
    (goesOn : ∀ value, (left value).length < length →
      Decided (next value) leftNext lengthNext) :
    Decided (outcome.andThen next) leftNext lengthNext := by
  obtain ⟨result, rfl, shorter⟩ := decided
  cases result with
  | none => exact rejected
  | some value => exact goesOn value (shorter value rfl)

end Decided

theorem length_skipWs_le (input : Bytes) : (skipWs input).length ≤ input.length :=
  (isBlank_skipWs input).length_le

/-- What is left behind a byte that follows white space. -/
theorem length_lt_of_skipWs {input rest : Bytes} {byte : UInt8}
    (isNext : skipWs input = byte :: rest) : rest.length < input.length := by
  have le := length_skipWs_le input
  rw [isNext, List.length_cons] at le
  omega

theorem parseStringLoop_shorter (input : Bytes) : ∀ {out rest : Bytes},
    parseStringLoop input = some (out, rest) → rest.length < input.length := by
  fun_induction parseStringLoop input with
  | case1 =>
      intro out rest isRead
      cases isRead
  | case2 rest =>
      intro out rest isRead
      cases isRead
      exact Nat.lt_succ_self _
  | case3 a b c d input ihPair ih =>
      intro out rest isRead
      obtain ⟨code, -, isRead⟩ := Option.bind_eq_some_iff.mp isRead
      split at isRead
      · split at isRead
        · obtain ⟨low, -, isRead⟩ := Option.bind_eq_some_iff.mp isRead
          split at isRead
          · obtain ⟨bytes, -, isRead⟩ := Option.bind_eq_some_iff.mp isRead
            obtain ⟨⟨out, left⟩, isInner, same⟩ := Option.map_eq_some_iff.mp isRead
            cases same
            have shorter := ihPair isInner
            simp only [List.length_cons] at shorter ⊢
            omega
          · cases isRead
        · cases isRead
      · split at isRead
        · cases isRead
        · obtain ⟨bytes, -, isRead⟩ := Option.bind_eq_some_iff.mp isRead
          obtain ⟨⟨out, left⟩, isInner, same⟩ := Option.map_eq_some_iff.mp isRead
          cases same
          have shorter := ih isInner
          simp only [List.length_cons] at shorter ⊢
          omega
  | case4 letter input _ ih =>
      intro out rest isRead
      obtain ⟨byte, -, isRead⟩ := Option.bind_eq_some_iff.mp isRead
      obtain ⟨⟨out, left⟩, isInner, same⟩ := Option.map_eq_some_iff.mp isRead
      cases same
      have shorter := ih isInner
      simp only [List.length_cons] at shorter ⊢
      omega
  | case5 =>
      intro out rest isRead
      cases isRead
  | case6 byte input _ _ _ _ ih =>
      intro out rest isRead
      obtain ⟨⟨out, left⟩, isInner, same⟩ := Option.map_eq_some_iff.mp isRead
      cases same
      have shorter := ih isInner
      simp only [List.length_cons] at shorter ⊢
      omega

/-- A reader decides every text that is shorter than the limit. -/
def Decides (read : JsonReader) (limit : ℕ) : Prop :=
  ∀ (ctx : Context) {input : Bytes}, input.length < limit →
    Decided (read ctx input) (fun value => value.2.1) input.length

section Decides

variable {read : JsonReader} {limit : ℕ} (decides : Decides read limit)

include decides

theorem parseElements_decided {arr : JSValue} : ∀ {turns : ℕ} (ctx : Context) {input : Bytes},
    input.length < turns → input.length < limit →
    Decided (parseElements read arr turns ctx input) Prod.fst input.length := by
  intro turns
  induction turns with
  | zero => exact fun ctx input few _ => absurd few (Nat.not_lt_zero _)
  | succ turns ih =>
      intro ctx input few small
      rw [parseElements_succ]
      refine (decides ctx small).andThen fun value shorter => ?_
      obtain ⟨val, left, middle⟩ := value
      dsimp only at shorter
      rw [afterElement]
      split
      · exact .rejected
      · rename_i after _ _
        split
        · rename_i next isNext
          have less := length_lt_of_skipWs isNext
          have lessNext := length_skipWs_le next
          obtain ⟨result, isResult, shorterResult⟩ :=
            @ih after (skipWs next) (by omega) (by omega)
          exact ⟨result, isResult, fun value same =>
            (shorterResult value same).trans (by omega)⟩
        · rename_i next isNext
          exact .accepted ((length_lt_of_skipWs isNext).trans shorter)
        · exact .rejected

theorem parseMembers_decided {engine : Engine} {obj : JSValue} : ∀ {turns : ℕ} (ctx : Context)
    {input : Bytes}, input.length < turns → input.length < limit →
    Decided (parseMembers engine read obj turns ctx input) Prod.fst input.length := by
  intro turns
  induction turns with
  | zero => exact fun ctx input few _ => absurd few (Nat.not_lt_zero _)
  | succ turns ih =>
      intro ctx input few small
      rw [parseMembers]
      split
      · exact .rejected
      · rename_i key left isKey
        have shorterKey : left.length < input.length := by
          unfold parseStringBytes at isKey
          split at isKey
          · rename_i name isName
            exact (parseStringLoop_shorter name isKey).trans (length_lt_of_skipWs isName)
          · cases isKey
        split
        · exact .rejected
        · split
          · rename_i colon isColon
            have shorterColon := length_lt_of_skipWs isColon
            refine (decides ctx (by omega)).andThen fun value shorter => ?_
            obtain ⟨val, left, middle⟩ := value
            dsimp only at shorter ⊢
            split
            · exact .rejected
            · rename_i after _ _
              split
              · rename_i next isNext
                have less := length_lt_of_skipWs isNext
                obtain ⟨result, isResult, shorterResult⟩ := @ih after next (by omega) (by omega)
                exact ⟨result, isResult, fun value same =>
                  (shorterResult value same).trans (by omega)⟩
              · rename_i next isNext
                have less := length_lt_of_skipWs isNext
                exact .accepted (show next.length < _ by omega)
              · exact .rejected
          · exact .rejected

end Decides

/-- An outcome that takes no fuel. -/
theorem Decided.of_option {outcome : Option (JSValue × Bytes × Context)} {length : ℕ}
    (shorter : ∀ {val rest after}, outcome = some (val, rest, after) → rest.length < length) :
    Decided (some outcome) (fun value => value.2.1) length :=
  ⟨outcome, rfl, fun _ same => shorter same⟩

theorem length_lt_of_parseLiteral {literal : String} {val found : JSValue} {ctx after : Context}
    {input rest : Bytes} (isRead : parseLiteral literal val ctx input = some (found, rest, after))
    (notEmpty : 0 < (asBytes literal).length) : rest.length < input.length := by
  rw [parseLiteral_sound isRead, List.length_append]
  omega

/-- `parse_value` decides every text with as much fuel as it is long. -/
theorem parseValue_decides (engine : Engine) (fuel : ℕ) : Decides (parseValue engine fuel) fuel := by
  induction fuel with
  | zero => exact fun ctx input few => absurd few (Nat.not_lt_zero _)
  | succ fuel ih =>
      intro ctx input few
      have le := length_skipWs_le input
      rw [parseValue]
      generalize skipWs input = start at le
      split
      · rename_i tail
        rw [List.length_cons] at le
        have leTail := length_skipWs_le tail
        split
        · exact .rejected
        · rename_i obj middle _ _
          split
          · rename_i next isNext
            have less := length_lt_of_skipWs isNext
            exact .accepted (show next.length < _ by omega)
          · refine (parseMembers_decided ih middle (by omega) (by omega)).andThen
              fun value shorter => ?_
            exact .accepted (show value.1.length < _ by omega)
      · rename_i tail
        rw [List.length_cons] at le
        have leTail := length_skipWs_le tail
        split
        · exact .rejected
        · rename_i arr middle _ _
          split
          · rename_i next isNext
            have less := length_lt_of_skipWs isNext
            exact .accepted (show next.length < _ by omega)
          · refine (parseElements_decided ih middle (by omega) (by omega)).andThen
              fun value shorter => ?_
            exact .accepted (show value.1.length < _ by omega)
      · rename_i tail
        rw [List.length_cons] at le
        refine .of_option fun {val rest after} isRead => ?_
        obtain ⟨⟨bytes, left⟩, isLoop, isRead⟩ := Option.bind_eq_some_iff.mp isRead
        have shorter := parseStringLoop_shorter tail isLoop
        dsimp only at isRead
        split at isRead
        · cases isRead
          omega
        · cases isRead
      · exact .of_option fun isRead =>
          (length_lt_of_parseLiteral isRead (by decide)).trans_le le
      · exact .of_option fun isRead =>
          (length_lt_of_parseLiteral isRead (by decide)).trans_le le
      · exact .of_option fun isRead =>
          (length_lt_of_parseLiteral isRead (by decide)).trans_le le
      · split
        · refine .of_option fun {val rest after} isRead => ?_
          obtain ⟨⟨text, left⟩, isTaken, isRead⟩ := Option.bind_eq_some_iff.mp isRead
          obtain ⟨number, -, same⟩ := Option.map_eq_some_iff.mp isRead
          cases same
          obtain ⟨isInput, negative, magnitude, isNumber⟩ := takeNumber_sound isTaken
          have positive := List.length_pos_iff.mpr isNumber.isVisible.2
          rw [isInput, List.length_append] at le
          omega
        · exact .rejected
      · exact .rejected

/-- `parse_json` decides every text. -/
theorem parseJson_decided (engine : Engine) {fuel : ℕ} (ctx : Context) {src : Bytes}
    (enough : src.length < fuel) : (parseJson engine fuel ctx src).isSome := by
  obtain ⟨result, isResult, -⟩ := parseValue_decides engine fuel ctx enough
  rw [parseJson, isResult]
  cases result <;> rfl

/-- What `parse_json` accepts is a JSON text. -/
theorem parseJson_sound (engine : Engine) (fuel : ℕ) {ctx after : Context} {src : Bytes}
    {val : JSValue} (isText : IsUtf8 src)
    (isRead : parseJson engine fuel ctx src = some (some (val, after))) :
    ∃ datum, IsText src datum := by
  obtain ⟨⟨val, left, middle⟩, isValue, isEnd⟩ := Parsed.andThen_eq_some isRead
  obtain ⟨start, datum, before, value, -⟩ := parseValue_sound engine fuel isText isValue
  have behind := isBlank_skipWs left
  dsimp only at isEnd
  split at isEnd
  · rename_i isEmpty
    rw [List.isEmpty_iff.mp isEmpty] at behind
    exact ⟨datum, start, left, before, value, behind⟩
  · cases isEnd

/-! ## The bytes of a rule -/

theorem IsInteger.starts {whole : Bytes} (isInteger : IsInteger whole) :
    ∃ digit digits, whole = digit :: digits ∧ isAsciiDigit digit = true := by
  obtain ⟨notEmpty, areDigits⟩ := isInteger.all_digits
  obtain ⟨digit, digits, rfl⟩ := List.exists_cons_of_ne_nil notEmpty
  exact ⟨digit, digits, rfl, List.all_eq_true.mp areDigits digit List.mem_cons_self⟩

theorem IsNumber.starts {text : Bytes} {negative : Bool} {magnitude : ℚ}
    (isNumber : IsNumber text negative magnitude) :
    ∃ byte rest, text = byte :: rest ∧ (byte = 45 ∨ isAsciiDigit byte = true) := by
  obtain ⟨literal, rfl, isInteger, -, -⟩ := isNumber
  cases negative with
  | true => exact ⟨45, literal.bytes, rfl, .inl rfl⟩
  | false =>
      obtain ⟨digit, digits, isWhole, isDigit⟩ := isInteger.starts
      rw [Decimal.bytes, isWhole]
      exact ⟨digit, _, rfl, .inr isDigit⟩

theorem IsValue.starts {input rest : Bytes} {datum : Datum} (value : IsValue input datum rest) :
    ∃ byte tail, input = byte :: tail ∧ Starts byte := by
  cases value with
  | null rest => exact ⟨110, _, rfl, by simp [Starts]⟩
  | isFalse rest => exact ⟨102, _, rfl, by simp [Starts]⟩
  | isTrue rest => exact ⟨116, _, rfl, by simp [Starts]⟩
  | number isNumber rest =>
      obtain ⟨byte, tail, rfl, isByte⟩ := isNumber.starts
      exact ⟨byte, _, rfl, by simp [Starts, isByte]⟩
  | string chars => exact ⟨34, _, rfl, by simp [Starts]⟩
  | emptyArray blank => exact ⟨91, _, rfl, by simp [Starts]⟩
  | array elements => exact ⟨91, _, rfl, by simp [Starts]⟩
  | emptyObject blank => exact ⟨123, _, rfl, by simp [Starts]⟩
  | object isMembers => exact ⟨123, _, rfl, by simp [Starts]⟩

/-- A number ends where white space and then a byte between values follow. -/
theorem IsBlank.endsNumber {input rest : Bytes} (blank : IsBlank input rest)
    (follows : Follows rest) : EndsNumber input := by
  intro byte isHead
  cases blank with
  | none =>
      rcases follows byte isHead with rfl | rfl | rfl <;> exact ⟨rfl, by decide, by decide, by decide⟩
  | more isSpace blank =>
      cases isHead
      rcases isSpace with rfl | rfl | rfl | rfl <;>
        exact ⟨rfl, by decide, by decide, by decide⟩

theorem follows_byte {byte : UInt8} {rest : Bytes} (isByte : byte = 44 ∨ byte = 93 ∨ byte = 125) :
    Follows (byte :: rest) := by
  rintro other isHead
  cases isHead
  exact isByte

theorem IsElements.uncons {input rest : Bytes} {item : Datum} {items : List Datum}
    (elements : IsElements input (item :: items) rest) :
    ∃ start left, IsBlank input start ∧ IsValue start item left ∧
      ((items = [] ∧ IsBlank left (93 :: rest)) ∨
        ∃ next, IsBlank left (44 :: next) ∧ IsElements next items rest) := by
  cases elements with
  | last before value behind => exact ⟨_, _, before, value, .inl ⟨rfl, behind⟩⟩
  | more before value behind elements => exact ⟨_, _, before, value, .inr ⟨_, behind, elements⟩⟩

theorem IsMembers.uncons {input rest : Bytes} {key : List Char} {item : Datum}
    {members : List (List Char × Datum)} (isMembers : IsMembers input ((key, item) :: members) rest) :
    ∃ name colon value start left, IsBlank input (34 :: name) ∧ IsChars name key colon ∧
      IsBlank colon (58 :: value) ∧ IsBlank value start ∧ IsValue start item left ∧
      ((members = [] ∧ IsBlank left (125 :: rest)) ∨
        ∃ next, IsBlank left (44 :: next) ∧ IsMembers next members rest) := by
  cases isMembers with
  | last beforeName chars beforeColon before value behind =>
      exact ⟨_, _, _, _, _, beforeName, chars, beforeColon, before, value, .inl ⟨rfl, behind⟩⟩
  | more beforeName chars beforeColon before value behind isMembers =>
      exact ⟨_, _, _, _, _, beforeName, chars, beforeColon, before, value,
        .inr ⟨_, behind, isMembers⟩⟩

/-! ## The datum of a text -/

/-- Digits behind a mark are where the mark ends. -/
theorem takeWhile_mark {mark digits : Bytes} (isMark : mark ∈ exponentMarks)
    (areDigits : digits.all isAsciiDigit = true) :
    (mark ++ digits).takeWhile (fun byte => !isAsciiDigit byte) = mark := by
  have noDigits : mark.all (fun byte => !isAsciiDigit byte) = true :=
    List.all_eq_true.mp (show (exponentMarks.all fun mark =>
      mark.all fun byte => !isAsciiDigit byte) = true from rfl) mark isMark
  rw [List.takeWhile_append_of_pos (List.all_eq_true.mp noDigits)]
  cases digits with
  | nil => exact List.append_nil mark
  | cons digit digits =>
      have isDigit : isAsciiDigit digit = true :=
        List.all_eq_true.mp areDigits digit List.mem_cons_self
      rw [List.takeWhile_cons_of_neg (by rw [isDigit]; decide), List.append_nil]

/-- An exponent is told from its text. -/
theorem exponentText_injective {written written' : Option (Bytes × Bytes)}
    (isExponent : IsExponent written) (isExponent' : IsExponent written')
    (same : exponentText written = exponentText written') : written = written' := by
  have notEmpty {mark digits : Bytes} (isExponent : IsExponent (some (mark, digits))) :
      mark ++ digits ≠ [] :=
    List.append_ne_nil_of_right_ne_nil _ (isExponent mark digits rfl).2.1
  cases written with
  | none =>
      cases written' with
      | none => rfl
      | some pair => exact absurd same.symm (notEmpty isExponent')
  | some pair =>
      cases written' with
      | none => exact absurd same (notEmpty isExponent)
      | some pair' =>
          obtain ⟨mark, digits⟩ := pair
          obtain ⟨mark', digits'⟩ := pair'
          obtain ⟨isMark, -, areDigits⟩ := isExponent mark digits rfl
          obtain ⟨isMark', -, areDigits'⟩ := isExponent' mark' digits' rfl
          change mark ++ digits = mark' ++ digits' at same
          have sameMark : mark = mark' := by
            rw [← takeWhile_mark isMark areDigits, same, takeWhile_mark isMark' areDigits']
          rw [sameMark] at same ⊢
          rw [List.append_cancel_left same]

theorem fractionText_injective {fraction fraction' : Option Bytes}
    (same : fractionText fraction = fractionText fraction') : fraction = fraction' := by
  cases fraction with
  | none =>
      cases fraction' with
      | none => rfl
      | some digits => cases same
  | some digits =>
      cases fraction' with
      | none => cases same
      | some digits' => rw [(List.cons.inj same).2]

/-- A literal is told from its text. -/
theorem Decimal.value_eq_of_bytes {literal literal' : Decimal}
    (isInteger : IsInteger literal.whole) (isInteger' : IsInteger literal'.whole)
    (isFraction : literal.fraction ≠ some []) (isFraction' : literal'.fraction ≠ some [])
    (same : literal.bytes = literal'.bytes) : literal.value = literal'.value := by
  have ends : EndsNumber [] := by
    rintro byte ⟨⟩
  have whole (literal : Decimal) (isInteger : IsInteger literal.whole) :
      takeInteger literal.bytes = some (literal.whole,
        fractionText literal.fraction ++ exponentText literal.exponent) := by
    have taken := takeInteger_append isInteger (head_behindWhole literal ends)
    rw [List.append_nil, ← Decimal.bytes_eq_texts] at taken
    exact taken
  have fraction (literal : Decimal) (isFraction : literal.fraction ≠ some []) :
      takeFraction (fractionText literal.fraction ++ exponentText literal.exponent) =
        some (fractionText literal.fraction, exponentText literal.exponent) := by
    have taken := takeFraction_append (isFraction_of_ne isFraction)
      (head_behindFraction literal ends)
    rw [List.append_nil] at taken
    exact taken
  have sameWhole := (whole literal isInteger).symm.trans (same ▸ whole literal' isInteger')
  obtain ⟨isWhole, behind⟩ := Prod.mk.inj (Option.some.inj sameWhole)
  have sameFraction := (fraction literal isFraction).symm.trans
    (behind ▸ fraction literal' isFraction')
  obtain ⟨isText, isExponent⟩ := Prod.mk.inj (Option.some.inj sameFraction)
  rw [Decimal.value, Decimal.value, Decimal.fractionBytes, Decimal.fractionBytes,
    Decimal.written, Decimal.written, isWhole, fractionText_injective isText,
    exponentText_injective literal.exponentDigits literal'.exponentDigits isExponent]

/-- A number is told from its text. -/
theorem IsNumber.unique {text : Bytes} {negative negative' : Bool} {magnitude magnitude' : ℚ}
    (isNumber : IsNumber text negative magnitude) (isNumber' : IsNumber text negative' magnitude') :
    negative = negative' ∧ magnitude = magnitude' := by
  have unsigned {literal literal' : Decimal} (isInteger : IsInteger literal'.whole)
      (same : [45] ++ literal.bytes = [] ++ literal'.bytes) : False := by
    obtain ⟨notEmpty, areDigits⟩ := isInteger.all_digits
    obtain ⟨digit, digits, isWhole⟩ := List.exists_cons_of_ne_nil notEmpty
    rw [Decimal.bytes_eq_texts literal', isWhole] at same
    obtain rfl : 45 = digit := (List.cons.inj same).1
    rw [isWhole] at areDigits
    cases areDigits
  obtain ⟨literal, isText, isInteger, isFraction, rfl⟩ := isNumber
  obtain ⟨literal', isText', isInteger', isFraction', rfl⟩ := isNumber'
  rw [isText] at isText'
  cases negative with
  | true =>
      cases negative' with
      | true =>
          exact ⟨rfl, Decimal.value_eq_of_bytes isInteger isInteger' isFraction isFraction'
            (List.append_cancel_left isText')⟩
      | false => exact (unsigned isInteger' isText').elim
  | false =>
      cases negative' with
      | true => exact (unsigned isInteger isText'.symm).elim
      | false =>
          exact ⟨rfl, Decimal.value_eq_of_bytes isInteger isInteger' isFraction isFraction'
            (List.append_cancel_left isText')⟩

/-! ### Values of one constructor -/

section Constructors

variable {input rest : Bytes}

theorem IsValue.of_null (value : IsValue input .null rest) : input = asBytes "null" ++ rest := by
  cases value
  rfl

theorem IsValue.of_bool {truth : Bool} (value : IsValue input (.bool truth) rest) :
    input = asBytes (if truth then "true" else "false") ++ rest := by
  cases value with
  | isFalse => rfl
  | isTrue => rfl

theorem IsValue.of_number {negative : Bool} {magnitude : ℚ}
    (value : IsValue input (.number negative magnitude) rest) :
    ∃ text, IsNumber text negative magnitude ∧ input = text ++ rest := by
  cases value with
  | number isNumber => exact ⟨_, isNumber, rfl⟩

theorem IsValue.of_string {text : List Char} (value : IsValue input (.string text) rest) :
    ∃ tail, input = 34 :: tail ∧ IsChars tail text rest := by
  cases value with
  | string chars => exact ⟨_, rfl, chars⟩

theorem IsValue.of_array {items : List Datum} (value : IsValue input (.array items) rest) :
    ∃ tail, input = 91 :: tail ∧
      (items = [] ∧ IsBlank tail (93 :: rest) ∨ IsElements tail items rest) := by
  cases value with
  | emptyArray blank => exact ⟨_, rfl, .inl ⟨rfl, blank⟩⟩
  | array elements => exact ⟨_, rfl, .inr elements⟩

theorem IsValue.of_object {members : List (List Char × Datum)}
    (value : IsValue input (.object members) rest) :
    ∃ tail, input = 123 :: tail ∧
      (members = [] ∧ IsBlank tail (125 :: rest) ∨ IsMembers tail members rest) := by
  cases value with
  | emptyObject blank => exact ⟨_, rfl, .inl ⟨rfl, blank⟩⟩
  | object isMembers => exact ⟨_, rfl, .inr isMembers⟩

/-- The kind of a datum, by the first byte of its texts. -/
def Datum.kind : Datum → ℕ
  | .null => 0
  | .bool true => 1
  | .bool false => 2
  | .number _ _ => 3
  | .string _ => 4
  | .array _ => 5
  | .object _ => 6

/-- The kind of the values that start with the byte. -/
def kindOf (byte : UInt8) : ℕ :=
  if byte = 110 then 0 else if byte = 116 then 1 else if byte = 102 then 2
  else if byte = 34 then 4 else if byte = 91 then 5 else if byte = 123 then 6 else 3

theorem IsValue.kind {datum : Datum} (value : IsValue input datum rest) :
    ∃ byte tail, input = byte :: tail ∧ kindOf byte = datum.kind := by
  cases datum with
  | null => exact ⟨110, _, value.of_null, rfl⟩
  | bool truth =>
      have isInput := value.of_bool
      cases truth with
      | true => exact ⟨116, _, isInput, rfl⟩
      | false => exact ⟨102, _, isInput, rfl⟩
  | number negative magnitude =>
      obtain ⟨text, isNumber, isInput⟩ := value.of_number
      obtain ⟨byte, tail, isText, isByte⟩ := isNumber.starts
      refine ⟨byte, tail ++ rest, by rw [isInput, isText]; rfl, ?_⟩
      have different (other : UInt8) (notNumber : other ≠ 45 ∧ isAsciiDigit other = false) :
          byte ≠ other := by
        rintro rfl
        rcases isByte with rfl | isDigit
        · exact notNumber.1 rfl
        · rw [notNumber.2] at isDigit
          cases isDigit
      rw [kindOf, if_neg (different 110 ⟨by decide, rfl⟩), if_neg (different 116 ⟨by decide, rfl⟩),
        if_neg (different 102 ⟨by decide, rfl⟩), if_neg (different 34 ⟨by decide, rfl⟩),
        if_neg (different 91 ⟨by decide, rfl⟩), if_neg (different 123 ⟨by decide, rfl⟩)]
      rfl
  | string text =>
      obtain ⟨tail, isInput, -⟩ := value.of_string
      exact ⟨34, tail, isInput, rfl⟩
  | array items =>
      obtain ⟨tail, isInput, -⟩ := value.of_array
      exact ⟨91, tail, isInput, rfl⟩
  | object members =>
      obtain ⟨tail, isInput, -⟩ := value.of_object
      exact ⟨123, tail, isInput, rfl⟩

theorem IsValue.kind_eq {rest' : Bytes} {datum datum' : Datum} (value : IsValue input datum rest)
    (value' : IsValue input datum' rest') : datum'.kind = datum.kind := by
  obtain ⟨byte, tail, isInput, isKind⟩ := value.kind
  obtain ⟨byte', tail', isInput', isKind'⟩ := value'.kind
  rw [isInput] at isInput'
  rw [← isKind, ← isKind', (List.cons.inj isInput').1]

theorem IsBlank.eq_of_value {start start' left left' : Bytes} {datum datum' : Datum}
    (before : IsBlank input start) (before' : IsBlank input start')
    (value : IsValue start datum left) (value' : IsValue start' datum' left') : start = start' := by
  obtain ⟨byte, tail, rfl, starts⟩ := value.starts
  obtain ⟨byte', tail', rfl, starts'⟩ := value'.starts
  exact (before.skipWs_solid starts.solid.1).symm.trans (before'.skipWs_solid starts'.solid.1)

theorem IsBlank.eq_of_solid {byte byte' : UInt8} {tail tail' : Bytes}
    (blank : IsBlank input (byte :: tail)) (blank' : IsBlank input (byte' :: tail'))
    (solid : Solid byte) (solid' : Solid byte') : byte = byte' ∧ tail = tail' :=
  List.cons.inj ((blank.skipWs_solid solid).symm.trans (blank'.skipWs_solid solid'))

theorem IsChars.unique {rest' : Bytes} {text text' : List Char} (chars : IsChars input text rest)
    (chars' : IsChars input text' rest') : text = text' ∧ rest = rest' := by
  obtain ⟨sameText, sameRest⟩ := Prod.mk.inj (Option.some.inj (chars.read.symm.trans chars'.read))
  exact ⟨Cache.encode_injective sameText, sameRest⟩

theorem IsElements.not_blank {items : List Datum} {left : Bytes}
    (elements : IsElements input items rest) (blank : IsBlank input (93 :: left)) : False := by
  cases items with
  | nil => cases elements
  | cons item items =>
      obtain ⟨start, behind, before, value, -⟩ := elements.uncons
      obtain ⟨byte, tail, rfl, starts⟩ := value.starts
      exact starts.solid.2.1 (before.eq_of_solid blank starts.solid.1 rfl).1

theorem IsMembers.not_blank {members : List (List Char × Datum)} {left : Bytes}
    (isMembers : IsMembers input members rest) (blank : IsBlank input (125 :: left)) : False := by
  cases members with
  | nil => cases isMembers
  | cons member members =>
      obtain ⟨name, -, -, -, -, beforeName, -⟩ := isMembers.uncons
      exact absurd (beforeName.eq_of_solid blank rfl rfl).1 (by decide)

theorem ends_of_behind {left : Bytes} {close : UInt8} (isClose : close = 93 ∨ close = 125)
    {items : Prop} {more : Bytes → Prop}
    (behind : (items ∧ IsBlank left (close :: rest)) ∨
      ∃ next, IsBlank left (44 :: next) ∧ more next) : EndsNumber left := by
  rcases behind with ⟨-, blank⟩ | ⟨next, comma, -⟩
  · exact blank.endsNumber (follows_byte (.inr isClose))
  · exact comma.endsNumber (follows_byte (.inl rfl))

/-- The rest that a comma or a closing byte leaves is the only one. -/
theorem behind_unique {left rest rest' : Bytes} {close : UInt8} (isClose : close = 93 ∨ close = 125)
    {items items' : Prop} {more more' : Bytes → Prop}
    (behind : (items ∧ IsBlank left (close :: rest)) ∨
      ∃ next, IsBlank left (44 :: next) ∧ more next)
    (behind' : (items' ∧ IsBlank left (close :: rest')) ∨
      ∃ next, IsBlank left (44 :: next) ∧ more' next) :
    items ∧ items' ∧ rest = rest' ∨ ∃ next, more next ∧ more' next := by
  have solid : close ≠ 44 ∧ Solid close := by
    rcases isClose with rfl | rfl <;> exact ⟨by decide, rfl⟩
  rcases behind with ⟨ends, blank⟩ | ⟨next, comma, others⟩
  · rcases behind' with ⟨ends', blank'⟩ | ⟨next', comma', -⟩
    · exact .inl ⟨ends, ends', (blank.eq_of_solid blank' solid.2 solid.2).2⟩
    · exact absurd (blank.eq_of_solid comma' solid.2 rfl).1 solid.1
  · rcases behind' with ⟨-, blank'⟩ | ⟨next', comma', others'⟩
    · exact absurd (comma.eq_of_solid blank' rfl solid.2).1.symm solid.1
    · obtain rfl := (comma.eq_of_solid comma' rfl rfl).2
      exact .inr ⟨next, others, others'⟩

end Constructors

mutual

/-- A text that starts with a value starts with no other one. -/
theorem IsValue.unique : (datum : Datum) → ∀ {input rest rest' : Bytes} {datum' : Datum},
    IsValue input datum rest → IsValue input datum' rest' → EndsNumber rest → EndsNumber rest' →
    datum = datum' ∧ rest = rest'
  | .null, input, rest, rest', datum', value, value', _, _ => by
      have kind := value.kind_eq value'
      rcases datum' with _ | (_ | _) | _ | _ | _ | _ <;> simp [Datum.kind] at kind
      · exact ⟨rfl, List.append_cancel_left (value.of_null.symm.trans value'.of_null)⟩
  | .bool truth, input, rest, rest', datum', value, value', _, _ => by
      have kind := value.kind_eq value'
      rcases datum' with _ | (_ | _) | _ | _ | _ | _ <;> cases truth <;>
        simp [Datum.kind] at kind <;>
        exact ⟨rfl, List.append_cancel_left (value.of_bool.symm.trans value'.of_bool)⟩
  | .number negative magnitude, input, rest, rest', datum', value, value', ends, ends' => by
      have kind := value.kind_eq value'
      rcases datum' with _ | (_ | _) | ⟨negative', magnitude'⟩ | _ | _ | _ <;>
        simp [Datum.kind] at kind
      · obtain ⟨text, isNumber, isInput⟩ := value.of_number
        obtain ⟨text', isNumber', isInput'⟩ := value'.of_number
        have taken := isNumber.take ends
        rw [← isInput, isInput', isNumber'.take ends'] at taken
        obtain ⟨rfl, rfl⟩ := Prod.mk.inj (Option.some.inj taken)
        obtain ⟨rfl, rfl⟩ := isNumber.unique isNumber'
        exact ⟨rfl, rfl⟩
  | .string text, input, rest, rest', datum', value, value', _, _ => by
      have kind := value.kind_eq value'
      rcases datum' with _ | (_ | _) | _ | text' | _ | _ <;> simp [Datum.kind] at kind
      · obtain ⟨tail, rfl, chars⟩ := value.of_string
        obtain ⟨tail', same, chars'⟩ := value'.of_string
        cases same
        obtain ⟨rfl, rfl⟩ := chars.unique chars'
        exact ⟨rfl, rfl⟩
  | .array items, input, rest, rest', datum', value, value', _, _ => by
      have kind := value.kind_eq value'
      rcases datum' with _ | (_ | _) | _ | _ | items' | _ <;> simp [Datum.kind] at kind
      · obtain ⟨tail, rfl, isArray⟩ := value.of_array
        obtain ⟨tail', same, isArray'⟩ := value'.of_array
        cases same
        rcases isArray with ⟨rfl, blank⟩ | elements
        · rcases isArray' with ⟨rfl, blank'⟩ | elements'
          · exact ⟨rfl, (blank.eq_of_solid blank' rfl rfl).2⟩
          · exact (elements'.not_blank blank).elim
        · rcases isArray' with ⟨rfl, blank'⟩ | elements'
          · exact (elements.not_blank blank').elim
          · obtain ⟨rfl, rfl⟩ := IsElements.unique items elements elements'
            exact ⟨rfl, rfl⟩
  | .object members, input, rest, rest', datum', value, value', _, _ => by
      have kind := value.kind_eq value'
      rcases datum' with _ | (_ | _) | _ | _ | _ | members' <;> simp [Datum.kind] at kind
      · obtain ⟨tail, rfl, isObject⟩ := value.of_object
        obtain ⟨tail', same, isObject'⟩ := value'.of_object
        cases same
        rcases isObject with ⟨rfl, blank⟩ | isMembers
        · rcases isObject' with ⟨rfl, blank'⟩ | isMembers'
          · exact ⟨rfl, (blank.eq_of_solid blank' rfl rfl).2⟩
          · exact (isMembers'.not_blank blank).elim
        · rcases isObject' with ⟨rfl, blank'⟩ | isMembers'
          · exact (isMembers.not_blank blank').elim
          · obtain ⟨rfl, rfl⟩ := IsMembers.unique members isMembers isMembers'
            exact ⟨rfl, rfl⟩

theorem IsElements.unique : (items : List Datum) → ∀ {input rest rest' : Bytes}
    {items' : List Datum}, IsElements input items rest → IsElements input items' rest' →
    items = items' ∧ rest = rest'
  | [], _, _, _, _, elements, _ => by cases elements
  | item :: items, input, rest, rest', items', elements, elements' => by
      cases items' with
      | nil => cases elements'
      | cons item' items' =>
          obtain ⟨start, left, before, value, behind⟩ := elements.uncons
          obtain ⟨start', left', before', value', behind'⟩ := elements'.uncons
          obtain rfl := before.eq_of_value before' value value'
          obtain ⟨rfl, rfl⟩ := IsValue.unique item value value'
            (ends_of_behind (.inl rfl) behind) (ends_of_behind (.inl rfl) behind')
          rcases behind_unique (.inl rfl) behind behind' with
            ⟨rfl, rfl, rfl⟩ | ⟨next, others, others'⟩
          · exact ⟨rfl, rfl⟩
          · obtain ⟨rfl, rfl⟩ := IsElements.unique items others others'
            exact ⟨rfl, rfl⟩

theorem IsMembers.unique : (members : List (List Char × Datum)) → ∀ {input rest rest' : Bytes}
    {members' : List (List Char × Datum)}, IsMembers input members rest →
    IsMembers input members' rest' → members = members' ∧ rest = rest'
  | [], _, _, _, _, isMembers, _ => by cases isMembers
  | (key, item) :: members, input, rest, rest', members', isMembers, isMembers' => by
      cases members' with
      | nil => cases isMembers'
      | cons member' members' =>
          obtain ⟨name, colon, value, start, left, beforeName, chars, beforeColon, before, isItem,
            behind⟩ := isMembers.uncons
          obtain ⟨name', colon', value', start', left', beforeName', chars', beforeColon',
            before', isItem', behind'⟩ := isMembers'.uncons
          obtain rfl := (beforeName.eq_of_solid beforeName' rfl rfl).2
          obtain ⟨isKey, rfl⟩ := chars.unique chars'
          obtain rfl := (beforeColon.eq_of_solid beforeColon' rfl rfl).2
          obtain rfl := before.eq_of_value before' isItem isItem'
          obtain ⟨isSame, rfl⟩ := IsValue.unique item isItem isItem'
            (ends_of_behind (.inr rfl) behind) (ends_of_behind (.inr rfl) behind')
          have isMember : (key, item) = member' := Prod.ext isKey isSame
          rw [← isMember]
          rcases behind_unique (.inr rfl) behind behind' with
            ⟨rfl, rfl, rfl⟩ | ⟨next, others, others'⟩
          · exact ⟨rfl, rfl⟩
          · obtain ⟨rfl, rfl⟩ := IsMembers.unique members others others'
            exact ⟨rfl, rfl⟩

end

/-- A JSON text denotes one datum. -/
theorem IsText.unique {input : Bytes} {datum datum' : Datum} (text : IsText input datum)
    (text' : IsText input datum') : datum = datum' := by
  obtain ⟨start, left, before, value, behind⟩ := text
  obtain ⟨start', left', before', value', behind'⟩ := text'
  have nothing : Follows [] := by
    rintro byte ⟨⟩
  obtain rfl := before.eq_of_value before' value value'
  exact (IsValue.unique datum value value' (behind.endsNumber nothing)
    (behind'.endsNumber nothing)).1

end Json
end Script
end MuonJs
