import MuonJs.Lib.Occurrences
import MuonJs.Script.UnitView

/-!
# Replacement of texts

`string_replace_nonregex` and `string_replace_regex` beside the replacement of the
language.  Both go through places of the input from left to right and put a text in for
each.  The text is expanded from a template, or a function is called for it.

A text that begins like the name of a built-in function is called as one as well.

Texts are rows of characters, as strings store them; a position of the language counts
their units.
-/

namespace MuonJs
namespace Script
namespace Replacing

open Cache (encode)
open Occurrences (find occurrences)

/-- The backquote. -/
def backquote : Char := Char.ofNat 96

/-- The single quote. -/
def singleQuote : Char := Char.ofNat 39

/-- The value of a digit. -/
def digitValue (digit : Char) : ℕ := digit.toNat - 48

/-- The part of a text between two positions. -/
def slice (text : List Char) (start stop : ℕ) : List Char := (text.drop start).take (stop - start)

/-! ## Templates -/

/-- What `expand_replace_substitutions` writes for a dollar sign with digits. -/
def numberedText (captures : Option (List (Option (List Char)))) (digits : List Char) :
    List Char :=
  let index := digits.foldl (fun value digit => value * 10 + digitValue digit) 0
  match captures.bind fun captures => captures[index]?.join with
  | some text => text
  | none => '$' :: digits

/-- `expand_replace_substitutions`. -/
def expandReplaceSubstitutions (matched before after : List Char)
    (captures : Option (List (Option (List Char)))) : List Char → List Char
  | [] => []
  | ch :: rest =>
      if ch = '$' then
        match rest with
        | [] => ['$']
        | next :: tail =>
            if next = '$' then '$' :: expandReplaceSubstitutions matched before after captures tail
            else if next = '&' then
              matched ++ expandReplaceSubstitutions matched before after captures tail
            else if next = backquote then
              before ++ expandReplaceSubstitutions matched before after captures tail
            else if next = singleQuote then
              after ++ expandReplaceSubstitutions matched before after captures tail
            else if next.isDigit then
              match tail with
              | [] => numberedText captures [next]
              | second :: more =>
                  if second.isDigit then
                    numberedText captures [next, second] ++
                      expandReplaceSubstitutions matched before after captures more
                  else
                    numberedText captures [next] ++
                      expandReplaceSubstitutions matched before after captures (second :: more)
            else '$' :: expandReplaceSubstitutions matched before after captures (next :: tail)
      else ch :: expandReplaceSubstitutions matched before after captures rest

/-- What the language writes for a dollar sign with digits, when they name so many. -/
def referenceText (captures : List (Option (List Char))) (digits : List Char) (index : ℕ) :
    List Char :=
  if 1 ≤ index ∧ index ≤ captures.length then (captures[index - 1]?.join).getD []
  else '$' :: digits

/-- The expansion of a template in the language: a reference takes two digits when so many
captures exist. -/
def getSubstitution (matched before after : List Char) (captures : List (Option (List Char))) :
    List Char → List Char
  | [] => []
  | ch :: rest =>
      if ch = '$' then
        match rest with
        | [] => ['$']
        | next :: tail =>
            if next = '$' then '$' :: getSubstitution matched before after captures tail
            else if next = '&' then matched ++ getSubstitution matched before after captures tail
            else if next = backquote then
              before ++ getSubstitution matched before after captures tail
            else if next = singleQuote then
              after ++ getSubstitution matched before after captures tail
            else if next.isDigit then
              match tail with
              | [] => referenceText captures [next] (digitValue next)
              | second :: more =>
                  if second.isDigit ∧
                      digitValue next * 10 + digitValue second ≤ captures.length then
                    referenceText captures [next, second]
                        (digitValue next * 10 + digitValue second) ++
                      getSubstitution matched before after captures more
                  else
                    referenceText captures [next] (digitValue next) ++
                      getSubstitution matched before after captures (second :: more)
            else '$' :: getSubstitution matched before after captures (next :: tail)
      else ch :: getSubstitution matched before after captures rest

/-! ## Replacements -/

/-- What a function is called with. -/
structure ReplaceArgs where
  matched : List Char
  captures : List (Option (List Char))
  position : ℤ
  input : List Char

/-- A template, or a function with the state that its calls change. -/
inductive Replacement (σ : Type)
  | text (template : List Char)
  | function (call : ReplaceArgs → σ → List Char × σ)

/-- A place of the input, and the captures of an expression there. -/
structure Place where
  start : ℕ
  stop : ℕ
  captures : List (Option (List Char))

variable {σ : Type}

/-- The text that the language puts in a place. -/
def substitution (input : List Char) (replacement : Replacement σ) (place : Place) (state : σ) :
    List Char × σ :=
  match replacement with
  | .text template =>
      (getSubstitution (slice input place.start place.stop) (input.take place.start)
        (input.drop place.stop) place.captures template, state)
  | .function call =>
      call ⟨slice input place.start place.stop, place.captures,
        ((input.take place.start).flatMap charUnits).length, input⟩ state

/-- The input from a position on, with a text put in each place. -/
def substituteFrom (input : List Char) (substitute : Place → σ → List Char × σ) :
    ℕ → List Place → σ → List Char × σ
  | last, [], state => (input.drop last, state)
  | last, place :: places, state =>
      let written := substitute place state
      let rest := substituteFrom input substitute place.stop places written.2
      (slice input last place.start ++ written.1 ++ rest.1, rest.2)

/-- The places at which the language replaces. -/
def chosen {α : Type} (all : Bool) (places : List α) : List α :=
  if all then places else places.take 1

/-- The places of a text. -/
def textPlaces (input search : List Char) (all : Bool) : List Place :=
  (chosen all (occurrences search input)).map fun position =>
    ⟨position, position + search.length, []⟩

/-- The replacement of the language. -/
def replaced (input : List Char) (replacement : Replacement σ) (places : List Place) (state : σ) :
    List Char × σ :=
  substituteFrom input (substitution input replacement) 0 places state

/-! ## The code -/

/-- The begin of the names of built-in functions. -/
def builtinPrefix : List Char := "__builtin_".toList

/-- What `js_is_function` takes a replacement for. -/
def Replacement.seen (builtin : List Char → ReplaceArgs → σ → List Char × σ) :
    Replacement σ → Replacement σ
  | .text template =>
      if builtinPrefix <+: template then .function (builtin template) else .text template
  | .function call => .function call

/-- A byte position as the number that a function gets. -/
def bytePosition (before : List Char) : ℤ := (Int32.ofNat (encode before).length).toInt

/-- What `string_replace_nonregex` writes for an occurrence. -/
def nonregexText (input search : List Char) (replacement : Replacement σ) (start : ℕ)
    (state : σ) : List Char × σ :=
  match replacement with
  | .text template =>
      (expandReplaceSubstitutions search (input.take start) (input.drop (start + search.length))
        none template, state)
  | .function call => call ⟨search, [], bytePosition (input.take start), input⟩ state

/-- The loop of `string_replace_nonregex`; fuel counts its turns. -/
def nonregexLoop (input search : List Char) (replacement : Replacement σ) (all : Bool) :
    ℕ → ℕ → σ → List Char × σ
  | 0, last, state => (input.drop last, state)
  | fuel + 1, last, state =>
      match find search (input.drop last) with
      | none => (input.drop last, state)
      | some place =>
          let written := nonregexText input search replacement (last + place) state
          let stop := last + place + search.length
          if all then
            let rest := nonregexLoop input search replacement all fuel stop written.2
            (slice input last (last + place) ++ written.1 ++ rest.1, rest.2)
          else (slice input last (last + place) ++ written.1 ++ input.drop stop, written.2)

/-- `str::replace` and `str::replacen` with one; fuel counts the occurrences. -/
def strReplace (search text : List Char) (all : Bool) : ℕ → List Char → List Char
  | 0, input => input
  | fuel + 1, input =>
      match find search input with
      | none => input
      | some place =>
          let rest := input.drop (place + search.length)
          input.take place ++ text ++
            if all then strReplace search text all fuel rest else rest

/-- `string_replace_nonregex`, on what `js_is_function` takes the replacement for. -/
def stringReplaceNonregex (input search : List Char) (replacement : Replacement σ) (all : Bool)
    (state : σ) : List Char × σ :=
  if search = [] then
    let written := match replacement with
      | .function call => call ⟨[], [], 0, input⟩ state
      | .text template => (template, state)
    if all then (written.1 ++ input.flatMap fun ch => ch :: written.1, written.2)
    else (written.1 ++ input, written.2)
  else
    match replacement with
    | .text template =>
        if '$' ∈ template then
          nonregexLoop input search (.text template) all (input.length + 1) 0 state
        else (strReplace search template all (input.length + 1) input, state)
    | .function call =>
        nonregexLoop input search (.function call) all (input.length + 1) 0 state

/-- The groups of a match, the whole match first. -/
abbrev Captures := List (Option (ℕ × ℕ))

/-- `caps.get`. -/
def Captures.span (captures : Captures) (index : ℕ) : Option (ℕ × ℕ) := captures[index]?.join

/-- The texts of groups. -/
def groupTexts (input : List Char) (groups : Captures) : List (Option (List Char)) :=
  groups.map (Option.map fun span => slice input span.1 span.2)

/-- What `string_replace_regex` writes for a match. -/
def regexText (input : List Char) (replacement : Replacement σ) (captures : Captures)
    (start stop : ℕ) (state : σ) : List Char × σ :=
  match replacement with
  | .text template =>
      (expandReplaceSubstitutions (slice input start stop) (input.take start) (input.drop stop)
        (some (groupTexts input captures)) template, state)
  | .function call =>
      call ⟨slice input start stop, groupTexts input (captures.drop 1),
        bytePosition (input.take start), input⟩ state

/-- `string_replace_regex`, on what `js_is_function` takes the replacement for and on the
results of `captures_iter`: none is an error. -/
def stringReplaceRegex (input : List Char) (replacement : Replacement σ) (all : Bool) :
    ℕ → List (Option Captures) → σ → List Char × σ
  | last, [], state => (input.drop last, state)
  | last, none :: _, state => (input.drop last, state)
  | last, some captures :: results, state =>
      match captures.span 0 with
      | none => stringReplaceRegex input replacement all last results state
      | some (start, stop) =>
          let written := regexText input replacement captures start stop state
          if all then
            let rest := stringReplaceRegex input replacement all stop results written.2
            (slice input last start ++ written.1 ++ rest.1, rest.2)
          else (slice input last start ++ written.1 ++ input.drop stop, written.2)

/-! ## Tokens of a template -/

/-- What a template is made of. -/
inductive Token
  | char (ch : Char)
  | dollar
  | whole
  | before
  | after
  | one (digit : Char)
  | two (first second : Char)

/-- The tokens of a template; a reference takes a second digit if there is one. -/
def tokens : List Char → List Token
  | [] => []
  | ch :: rest =>
      if ch = '$' then
        match rest with
        | [] => [.char '$']
        | next :: tail =>
            if next = '$' then .dollar :: tokens tail
            else if next = '&' then .whole :: tokens tail
            else if next = backquote then .before :: tokens tail
            else if next = singleQuote then .after :: tokens tail
            else if next.isDigit then
              match tail with
              | [] => [.one next]
              | second :: more =>
                  if second.isDigit then .two next second :: tokens more
                  else .one next :: tokens (second :: more)
            else .char '$' :: tokens (next :: tail)
      else .char ch :: tokens rest

namespace Token

/-- The text of a token in its template. -/
def source : Token → List Char
  | .char ch => [ch]
  | .dollar => ['$', '$']
  | .whole => ['$', '&']
  | .before => ['$', backquote]
  | .after => ['$', singleQuote]
  | .one digit => ['$', digit]
  | .two first second => ['$', first, second]

/-- What the code writes for a token. -/
def written (matched before after : List Char) (captures : Option (List (Option (List Char)))) :
    Token → List Char
  | .char ch => [ch]
  | .dollar => ['$']
  | .whole => matched
  | .before => before
  | .after => after
  | .one digit => numberedText captures [digit]
  | .two first second => numberedText captures [first, second]

/-- What the language writes for a token. -/
def expected (matched before after : List Char) (captures : List (Option (List Char))) :
    Token → List Char
  | .char ch => [ch]
  | .dollar => ['$']
  | .whole => matched
  | .before => before
  | .after => after
  | .one digit => referenceText captures [digit] (digitValue digit)
  | .two first second =>
      if digitValue first * 10 + digitValue second ≤ captures.length then
        referenceText captures [first, second] (digitValue first * 10 + digitValue second)
      else referenceText captures [first] (digitValue first) ++ [second]

end Token

theorem not_dollar_of_isDigit {ch : Char} (isDigit : ch.isDigit = true) : ch ≠ '$' := by
  rintro rfl
  exact absurd isDigit (by decide)

theorem source_tokens (template : List Char) : (tokens template).flatMap Token.source = template := by
  fun_induction tokens template with
  | case1 => rfl
  | case2 => rfl
  | case3 tail hypothesis => simp only [List.flatMap_cons, hypothesis, Token.source]; rfl
  | case4 tail _ hypothesis => simp only [List.flatMap_cons, hypothesis, Token.source]; rfl
  | case5 tail _ _ hypothesis => simp only [List.flatMap_cons, hypothesis, Token.source]; rfl
  | case6 tail _ _ _ hypothesis => simp only [List.flatMap_cons, hypothesis, Token.source]; rfl
  | case7 => rfl
  | case8 => simp only [List.flatMap_cons, *, Token.source]; rfl
  | case9 => simp only [List.flatMap_cons, *, Token.source]; rfl
  | case10 => simp only [List.flatMap_cons, *, Token.source]; rfl
  | case11 => simp only [List.flatMap_cons, *, Token.source]; rfl

theorem expandReplaceSubstitutions_eq (matched before after : List Char)
    (captures : Option (List (Option (List Char)))) (template : List Char) :
    expandReplaceSubstitutions matched before after captures template =
      (tokens template).flatMap (Token.written matched before after captures) := by
  fun_induction tokens template with
  | case1 => rfl
  | case2 => rfl
  | case3 tail hypothesis =>
      rw [expandReplaceSubstitutions.eq_def]
      simp [hypothesis, Token.written]
  | case4 tail notDollar hypothesis =>
      rw [expandReplaceSubstitutions.eq_def]
      simp [hypothesis, Token.written]
  | case5 tail notDollar notWhole hypothesis =>
      rw [expandReplaceSubstitutions.eq_def]
      simp [notDollar, notWhole, hypothesis, Token.written]
  | case6 tail notDollar notWhole notBefore hypothesis =>
      rw [expandReplaceSubstitutions.eq_def]
      simp [notDollar, notWhole, notBefore, hypothesis, Token.written]
  | case7 next notDollar notWhole notBefore notAfter isDigit =>
      rw [expandReplaceSubstitutions.eq_def]
      simp [notDollar, notWhole, notBefore, notAfter, isDigit, Token.written]
  | case8 next notDollar notWhole notBefore notAfter isDigit second more isSecond hypothesis =>
      rw [expandReplaceSubstitutions.eq_def]
      simp [notDollar, notWhole, notBefore, notAfter, isDigit, isSecond, hypothesis,
        Token.written]
  | case9 next notDollar notWhole notBefore notAfter isDigit second more notSecond hypothesis =>
      rw [expandReplaceSubstitutions.eq_def]
      simp [notDollar, notWhole, notBefore, notAfter, isDigit, notSecond, hypothesis,
        Token.written]
  | case10 next tail notDollar notWhole notBefore notAfter notDigit hypothesis =>
      rw [expandReplaceSubstitutions.eq_def]
      simp [notDollar, notWhole, notBefore, notAfter, notDigit, hypothesis, Token.written]
  | case11 ch rest notDollar hypothesis =>
      rw [expandReplaceSubstitutions.eq_def]
      simp [notDollar, hypothesis, Token.written]

theorem getSubstitution_cons (matched before after : List Char)
    (captures : List (Option (List Char))) {ch : Char} (notDollar : ch ≠ '$') (rest : List Char) :
    getSubstitution matched before after captures (ch :: rest) =
      ch :: getSubstitution matched before after captures rest := by
  rw [getSubstitution.eq_def]
  simp [notDollar]

theorem getSubstitution_eq (matched before after : List Char)
    (captures : List (Option (List Char))) (template : List Char) :
    getSubstitution matched before after captures template =
      (tokens template).flatMap (Token.expected matched before after captures) := by
  fun_induction tokens template with
  | case1 => rfl
  | case2 => rfl
  | case3 tail hypothesis =>
      rw [getSubstitution.eq_def]
      simp [hypothesis, Token.expected]
  | case4 tail notDollar hypothesis =>
      rw [getSubstitution.eq_def]
      simp [hypothesis, Token.expected]
  | case5 tail notDollar notWhole hypothesis =>
      rw [getSubstitution.eq_def]
      simp [notDollar, notWhole, hypothesis, Token.expected]
  | case6 tail notDollar notWhole notBefore hypothesis =>
      rw [getSubstitution.eq_def]
      simp [notDollar, notWhole, notBefore, hypothesis, Token.expected]
  | case7 next notDollar notWhole notBefore notAfter isDigit =>
      rw [getSubstitution.eq_def]
      simp [notDollar, notWhole, notBefore, notAfter, isDigit, Token.expected]
  | case8 next notDollar notWhole notBefore notAfter isDigit second more isSecond hypothesis =>
      rw [getSubstitution.eq_def]
      by_cases fits : digitValue next * 10 + digitValue second ≤ captures.length
      · simp [notDollar, notWhole, notBefore, notAfter, isDigit, isSecond, hypothesis,
          Token.expected, fits]
      · simp [notDollar, notWhole, notBefore, notAfter, isDigit, isSecond, hypothesis,
          Token.expected, fits,
          getSubstitution_cons matched before after captures (not_dollar_of_isDigit isSecond)]
  | case9 next notDollar notWhole notBefore notAfter isDigit second more notSecond hypothesis =>
      rw [getSubstitution.eq_def]
      simp [notDollar, notWhole, notBefore, notAfter, isDigit, notSecond, hypothesis,
        Token.expected]
  | case10 next tail notDollar notWhole notBefore notAfter notDigit hypothesis =>
      rw [getSubstitution.eq_def]
      simp [notDollar, notWhole, notBefore, notAfter, notDigit, hypothesis, Token.expected]
  | case11 ch rest notDollar hypothesis =>
      rw [getSubstitution_cons matched before after captures notDollar, hypothesis]
      rfl

/-! ## Templates without captures -/

theorem numberedText_none (digits : List Char) : numberedText none digits = '$' :: digits := rfl

theorem referenceText_nil (digits : List Char) (index : ℕ) :
    referenceText [] digits index = '$' :: digits :=
  if_neg fun both => absurd (Nat.le_trans both.1 both.2) (by decide)

/-- Without captures both read a template alike. -/
theorem expandReplaceSubstitutions_none (matched before after template : List Char) :
    expandReplaceSubstitutions matched before after none template =
      getSubstitution matched before after [] template := by
  rw [expandReplaceSubstitutions_eq, getSubstitution_eq]
  refine List.flatMap_congr fun token _ => ?_
  cases token with
  | char => rfl
  | dollar => rfl
  | whole => rfl
  | before => rfl
  | after => rfl
  | one digit => rw [Token.written, Token.expected, numberedText_none, referenceText_nil]
  | two first second =>
      rw [Token.written, Token.expected, numberedText_none, referenceText_nil, referenceText_nil]
      split
      · rfl
      · rfl

/-- A token that the language expands also without captures. -/
def Token.Expands : Token → Prop
  | .dollar => True
  | .whole => True
  | .before => True
  | .after => True
  | _ => False

/-- A template with a reference to the place of a replacement, or an escaped dollar. -/
def HasReference (template : List Char) : Prop := ∃ token ∈ tokens template, token.Expands

theorem Token.expected_of_not_expands {token : Token} (constant : ¬token.Expands)
    (matched before after : List Char) : token.expected matched before after [] = token.source := by
  cases token with
  | char => rfl
  | dollar | whole | before | after => exact absurd trivial constant
  | one digit => rw [Token.expected, referenceText_nil]; rfl
  | two first second =>
      rw [Token.expected, referenceText_nil, referenceText_nil]
      split
      · rfl
      · rfl

/-- A template without references stands for itself. -/
theorem getSubstitution_of_not_hasReference {template : List Char}
    (constant : ¬HasReference template) (matched before after : List Char) :
    getSubstitution matched before after [] template = template := by
  calc getSubstitution matched before after [] template
      = (tokens template).flatMap (Token.expected matched before after []) :=
        getSubstitution_eq _ _ _ _ _
    _ = (tokens template).flatMap Token.source :=
        List.flatMap_congr fun token isToken =>
          Token.expected_of_not_expands (fun expands => constant ⟨token, isToken, expands⟩) _ _ _
    _ = template := source_tokens template

theorem Token.length_expected_le (token : Token) :
    (token.expected [] [] [] []).length ≤ token.source.length ∧
      (token.Expands → (token.expected [] [] [] []).length < token.source.length) := by
  by_cases expands : token.Expands
  · have less : (token.expected [] [] [] []).length < token.source.length := by
      cases token with
      | char => exact absurd expands id
      | dollar => decide
      | whole => decide
      | before => exact Nat.zero_lt_two
      | after => exact Nat.zero_lt_two
      | one => exact absurd expands id
      | two => exact absurd expands id
    exact ⟨Nat.le_of_lt less, fun _ => less⟩
  · rw [Token.expected_of_not_expands expands]
    exact ⟨Nat.le_refl _, fun isOne => absurd isOne expands⟩

theorem length_flatMap_lt {α β γ : Type} {items : List α} {f : α → List β} {g : α → List γ}
    (each : ∀ item ∈ items, (f item).length ≤ (g item).length)
    (one : ∃ item ∈ items, (f item).length < (g item).length) :
    (items.flatMap f).length < (items.flatMap g).length := by
  rw [List.length_flatMap, List.length_flatMap]
  exact List.sum_lt_sum _ _ each one

/-- Where there is nothing, a template with a reference becomes shorter. -/
theorem getSubstitution_ne_of_hasReference {template : List Char}
    (reference : HasReference template) : getSubstitution [] [] [] [] template ≠ template := by
  intro same
  obtain ⟨token, isToken, expands⟩ := reference
  have less := length_flatMap_lt
    (fun token (_ : token ∈ tokens template) => token.length_expected_le.1)
    ⟨token, isToken, token.length_expected_le.2 expands⟩
  rw [← getSubstitution_eq, source_tokens, same] at less
  exact absurd less (Nat.lt_irrefl _)

/-! ## Templates with captures -/

/-- A reference that both read alike: its number is that of a capture which is defined, or
neither its two digits nor its first one name a capture. -/
def Token.ReadsSame (isDefined : List Bool) : Token → Prop
  | .one digit =>
      digitValue digit ≠ 0 ∧
        (digitValue digit ≤ isDefined.length → isDefined[digitValue digit - 1]? = some true)
  | .two first second =>
      if digitValue first * 10 + digitValue second ≤ isDefined.length then
        digitValue first * 10 + digitValue second ≠ 0 ∧
          isDefined[digitValue first * 10 + digitValue second - 1]? = some true
      else ¬(1 ≤ digitValue first ∧ digitValue first ≤ isDefined.length)
  | _ => True

/-- A template whose references both read alike. -/
def ReadsSame (isDefined : List Bool) (template : List Char) : Prop :=
  ∀ token ∈ tokens template, token.ReadsSame isDefined

theorem numberedText_some (matched : List Char) (captures : List (Option (List Char)))
    (digits : List Char) (index : ℕ)
    (isIndex : digits.foldl (fun value digit => value * 10 + digitValue digit) 0 = index) :
    numberedText (some (some matched :: captures)) digits =
      if index = 0 then matched
      else (captures[index - 1]?.join).getD ('$' :: digits) := by
  rw [numberedText, isIndex, Option.bind_some]
  cases index with
  | zero => rfl
  | succ index =>
      rw [List.getElem?_cons_succ, if_neg (Nat.succ_ne_zero _), Nat.succ_sub_one]
      cases captures[index]?.join with
      | none => rfl
      | some _ => rfl

theorem getElem?_isSome_map {captures : List (Option (List Char))} {index : ℕ} :
    (captures.map Option.isSome)[index]? = some true ↔ ∃ text, captures[index]? = some (some text) := by
  rw [List.getElem?_map, Option.map_eq_some_iff]
  constructor
  · rintro ⟨capture, isCapture, isSome⟩
    obtain ⟨text, rfl⟩ := Option.isSome_iff_exists.mp isSome
    exact ⟨text, isCapture⟩
  · rintro ⟨text, isCapture⟩
    exact ⟨some text, isCapture, rfl⟩

theorem join_none_of_length_le {captures : List (Option (List Char))} {index : ℕ}
    (large : captures.length < index) : (captures[index - 1]?.join) = none := by
  rw [List.getElem?_eq_none (by omega)]
  rfl

theorem foldl_one (digit : Char) :
    [digit].foldl (fun value digit => value * 10 + digitValue digit) 0 = digitValue digit := by
  simp

theorem foldl_two (first second : Char) :
    [first, second].foldl (fun value digit => value * 10 + digitValue digit) 0 =
      digitValue first * 10 + digitValue second := by
  simp

/-- The text of a number that names a defined capture. -/
theorem numberedText_eq_referenceText {captures : List (Option (List Char))} {index : ℕ}
    (matched digits : List Char)
    (isIndex : digits.foldl (fun value digit => value * 10 + digitValue digit) 0 = index)
    (notZero : index ≠ 0)
    (isDefined : index ≤ captures.length →
      (captures.map Option.isSome)[index - 1]? = some true) :
    numberedText (some (some matched :: captures)) digits = referenceText captures digits index := by
  rw [numberedText_some matched captures digits index isIndex, if_neg notZero, referenceText]
  by_cases fits : index ≤ captures.length
  · obtain ⟨text, isText⟩ := getElem?_isSome_map.mp (isDefined fits)
    rw [if_pos ⟨Nat.pos_of_ne_zero notZero, fits⟩, isText]
    rfl
  · rw [if_neg (fun both => fits both.2), join_none_of_length_le (Nat.lt_of_not_le fits)]
    rfl

theorem Token.written_eq_expected {token : Token} {captures : List (Option (List Char))}
    (matched before after : List Char)
    (same : token.ReadsSame (captures.map Option.isSome)) :
    token.written matched before after (some (some matched :: captures)) =
      token.expected matched before after captures := by
  cases token with
  | char => rfl
  | dollar => rfl
  | whole => rfl
  | before => rfl
  | after => rfl
  | one digit =>
      rw [Token.ReadsSame, List.length_map] at same
      exact numberedText_eq_referenceText matched [digit] (foldl_one digit) same.1 same.2
  | two first second =>
      rw [Token.ReadsSame, List.length_map] at same
      rw [Token.written, Token.expected]
      split at same
      · rename_i fits
        rw [if_pos fits]
        exact numberedText_eq_referenceText matched [first, second] (foldl_two first second) same.1
          fun _ => same.2
      · rename_i large
        rw [if_neg large, referenceText, if_neg same,
          numberedText_some matched captures _ _ (foldl_two first second),
          if_neg (by omega), join_none_of_length_le (Nat.lt_of_not_le large)]
        rfl

theorem expandReplaceSubstitutions_eq_getSubstitution {template : List Char}
    {captures : List (Option (List Char))} (matched before after : List Char)
    (same : ReadsSame (captures.map Option.isSome) template) :
    expandReplaceSubstitutions matched before after (some (some matched :: captures)) template =
      getSubstitution matched before after captures template := by
  rw [expandReplaceSubstitutions_eq, getSubstitution_eq]
  exact List.flatMap_congr fun token isToken =>
    Token.written_eq_expected matched before after (same token isToken)

/-- Captures that are empty where they are defined. -/
def emptyCaptures (isDefined : List Bool) : List (Option (List Char)) :=
  isDefined.map fun defined => if defined then some [] else none

/-- A match that is longer than every reference. -/
def longMatch : List Char := ['a', 'a', 'a', 'a']

theorem emptyCaptures_join (isDefined : List Bool) (index : ℕ) (other : List Char) :
    ((emptyCaptures isDefined)[index]?.join).getD other = [] ∨
      isDefined[index]? ≠ some true ∧
        ((emptyCaptures isDefined)[index]?.join).getD other = other := by
  rw [emptyCaptures, List.getElem?_map]
  cases isDefined[index]? with
  | none => exact .inr ⟨by simp, rfl⟩
  | some defined =>
      cases defined with
      | false => exact .inr ⟨by simp, rfl⟩
      | true => exact .inl rfl

/-- A reference to empty captures. -/
theorem referenceText_emptyCaptures (isDefined : List Bool) (digits : List Char) (index : ℕ) :
    referenceText (emptyCaptures isDefined) digits index =
      if 1 ≤ index ∧ index ≤ isDefined.length then [] else '$' :: digits := by
  rw [referenceText, emptyCaptures, List.length_map]
  split
  · obtain same | ⟨-, same⟩ := emptyCaptures_join isDefined (index - 1) []
    · exact same
    · exact same
  · rfl

/-- With empty captures and a long match the code never writes less than the language for a
number. -/
theorem length_numberedText_ge (isDefined : List Bool) (digits : List Char) (index : ℕ)
    (short : digits.length ≤ 2)
    (isIndex : digits.foldl (fun value digit => value * 10 + digitValue digit) 0 = index) :
    (referenceText (emptyCaptures isDefined) digits index).length ≤
        (numberedText (some (some longMatch :: emptyCaptures isDefined)) digits).length ∧
      (¬(index ≠ 0 ∧ (index ≤ isDefined.length → isDefined[index - 1]? = some true)) →
        (referenceText (emptyCaptures isDefined) digits index).length <
          (numberedText (some (some longMatch :: emptyCaptures isDefined)) digits).length) := by
  rw [numberedText_some longMatch _ digits index isIndex, referenceText_emptyCaptures]
  by_cases isZero : index = 0
  · rw [if_pos isZero, if_neg (fun both => by omega), List.length_cons]
    have long : longMatch.length = 4 := rfl
    exact ⟨by omega, fun _ => by omega⟩
  rw [if_neg isZero]
  by_cases fits : index ≤ isDefined.length
  · rw [if_pos ⟨Nat.pos_of_ne_zero isZero, fits⟩]
    obtain same | ⟨notDefined, same⟩ :=
      emptyCaptures_join isDefined (index - 1) ('$' :: digits)
    · rw [same]
      refine ⟨Nat.le_refl _, fun wrong => absurd ⟨isZero, fun _ => ?_⟩ wrong⟩
      by_contra notDefined
      rw [emptyCaptures, List.getElem?_map] at same
      cases entry : isDefined[index - 1]? with
      | none => rw [entry] at same; cases same
      | some defined =>
          cases defined with
          | false => rw [entry] at same; cases same
          | true => exact notDefined entry
    · rw [same]
      exact ⟨Nat.zero_le _, fun _ => Nat.zero_lt_succ _⟩
  · have absent : ((emptyCaptures isDefined)[index - 1]?.join) = none := by
      apply join_none_of_length_le
      rw [emptyCaptures, List.length_map]
      exact Nat.lt_of_not_le fits
    rw [if_neg (fun both => fits both.2), absent]
    exact ⟨Nat.le_refl _, fun wrong => absurd ⟨isZero, fun within => absurd within fits⟩ wrong⟩

theorem Token.length_written_ge (isDefined : List Bool) (before after : List Char)
    (token : Token) :
    (token.expected longMatch before after (emptyCaptures isDefined)).length ≤
        (token.written longMatch before after
          (some (some longMatch :: emptyCaptures isDefined))).length ∧
      (¬token.ReadsSame isDefined →
        (token.expected longMatch before after (emptyCaptures isDefined)).length <
          (token.written longMatch before after
            (some (some longMatch :: emptyCaptures isDefined))).length) := by
  cases token with
  | char | dollar | whole | before | after =>
      exact ⟨Nat.le_refl _, fun wrong => absurd trivial wrong⟩
  | one digit => exact length_numberedText_ge isDefined [digit] _ (by simp) (foldl_one digit)
  | two first second =>
      rw [Token.expected, Token.written, Token.ReadsSame]
      have size : (emptyCaptures isDefined).length = isDefined.length := List.length_map _
      rw [size]
      split
      · rename_i fits
        obtain ⟨least, strict⟩ :=
          length_numberedText_ge isDefined [first, second] _ (by simp) (foldl_two first second)
        exact ⟨least, fun wrong => strict fun both => wrong ⟨both.1, both.2 fits⟩⟩
      · rename_i large
        have absent : ((emptyCaptures isDefined)[digitValue first * 10 + digitValue second - 1]?.join)
            = none := by
          apply join_none_of_length_le
          rw [size]
          exact Nat.lt_of_not_le large
        rw [numberedText_some longMatch _ _ _ (foldl_two first second), if_neg (by omega), absent,
          referenceText_emptyCaptures]
        by_cases isCapture : 1 ≤ digitValue first ∧ digitValue first ≤ isDefined.length
        · rw [if_pos isCapture]
          exact ⟨by simp, fun _ => by simp⟩
        · rw [if_neg isCapture]
          exact ⟨Nat.le_refl _, fun wrong => absurd isCapture wrong⟩

/-- With empty captures and a long match the code writes no less than the language, and more
if a reference is read differently. -/
theorem length_expandReplaceSubstitutions_ge (isDefined : List Bool)
    (before after template : List Char) :
    (getSubstitution longMatch before after (emptyCaptures isDefined) template).length ≤
        (expandReplaceSubstitutions longMatch before after
          (some (some longMatch :: emptyCaptures isDefined)) template).length ∧
      (¬ReadsSame isDefined template →
        (getSubstitution longMatch before after (emptyCaptures isDefined) template).length <
          (expandReplaceSubstitutions longMatch before after
            (some (some longMatch :: emptyCaptures isDefined)) template).length) := by
  rw [getSubstitution_eq, expandReplaceSubstitutions_eq]
  constructor
  · rw [List.length_flatMap, List.length_flatMap]
    exact List.sum_le_sum fun token _ => (token.length_written_ge isDefined before after).1
  · intro differs
    simp only [ReadsSame, not_forall, exists_prop] at differs
    obtain ⟨token, isToken, wrong⟩ := differs
    exact length_flatMap_lt
      (fun token (_ : token ∈ tokens template) =>
        (token.length_written_ge isDefined before after).1)
      ⟨token, isToken, (token.length_written_ge isDefined before after).2 wrong⟩

/-! ## Places -/

theorem substituteFrom_congr {input : List Char} {left right : Place → σ → List Char × σ}
    {places : List Place}
    (same : ∀ place ∈ places, ∀ state, left place state = right place state) (last : ℕ)
    (state : σ) :
    substituteFrom input left last places state = substituteFrom input right last places state := by
  induction places generalizing last state with
  | nil => rfl
  | cons place places hypothesis =>
      rw [substituteFrom, substituteFrom, same place List.mem_cons_self,
        hypothesis fun other isOther => same other (List.mem_cons_of_mem _ isOther)]

/-- What is put in a place is no shorter than something else, and nothing changes the state:
neither is the whole text. -/
theorem length_substituteFrom_ge (input : List Char) {less more : Place → σ → List Char × σ}
    {places : List Place}
    (each : ∀ place ∈ places, ∀ state, (less place state).1.length ≤ (more place state).1.length ∧
      (less place state).2 = state ∧ (more place state).2 = state)
    (last : ℕ) (state : σ) :
    (substituteFrom input less last places state).1.length ≤
        (substituteFrom input more last places state).1.length ∧
      ((∃ place ∈ places, (less place state).1.length < (more place state).1.length) →
        (substituteFrom input less last places state).1.length <
          (substituteFrom input more last places state).1.length) := by
  induction places generalizing last with
  | nil =>
      refine ⟨Nat.le_refl _, ?_⟩
      rintro ⟨place, isPlace, -⟩
      cases isPlace
  | cons place places hypothesis =>
      obtain ⟨least, sameLess, sameMore⟩ := each place List.mem_cons_self state
      obtain ⟨rest, strict⟩ :=
        hypothesis (fun other isOther => each other (List.mem_cons_of_mem _ isOther)) place.stop
      rw [substituteFrom, substituteFrom, sameLess, sameMore]
      simp only [List.length_append]
      refine ⟨by omega, ?_⟩
      rintro ⟨other, isOther, less⟩
      obtain rfl | isLater := List.mem_cons.mp isOther
      · omega
      · have := strict ⟨other, isLater, less⟩
        omega

/-- The replacement by a text leaves the state. -/
theorem replaced_text_state (input template : List Char) (places : List Place) (state : σ) :
    (replaced input (.text template) places state).2 = state := by
  unfold replaced
  generalize 0 = last
  induction places generalizing last with
  | nil => rfl
  | cons place places hypothesis =>
      rw [substituteFrom]
      exact hypothesis place.stop

/-- The place of an occurrence. -/
def textPlace (search : List Char) (position : ℕ) : Place :=
  ⟨position, position + search.length, []⟩

theorem textPlaces_eq (input search : List Char) (all : Bool) :
    textPlaces input search all = (chosen all (occurrences search input)).map (textPlace search) :=
  rfl

theorem chosen_true {α : Type} (items : List α) : chosen true items = items := rfl

theorem chosen_false_cons {α : Type} (item : α) (items : List α) :
    chosen false (item :: items) = [item] := rfl

theorem mem_of_mem_chosen {α : Type} {all : Bool} {items : List α} {item : α}
    (isItem : item ∈ chosen all items) : item ∈ items := by
  rw [chosen] at isItem
  split at isItem
  · exact isItem
  · exact List.mem_of_mem_take isItem

theorem slice_of_isAt {search input : List Char} {position : ℕ}
    (isAt : Occurrences.IsAt search input position) :
    slice input position (position + search.length) = search := by
  rw [slice, Nat.add_sub_cancel_left]
  exact (List.prefix_iff_eq_take.mp isAt.2).symm

theorem slice_add (input : List Char) (last place : ℕ) :
    slice input last (last + place) = (input.drop last).take place := by
  rw [slice, Nat.add_sub_cancel_left]

theorem isAt_of_mem_occurrences {search input : List Char} {position : ℕ}
    (isPlace : position ∈ occurrences search input) : Occurrences.IsAt search input position :=
  (Occurrences.greedy_occurrences search input).isAt_of_mem isPlace

theorem length_drop_lt {search input : List Char} (notNil : search ≠ []) {last place : ℕ}
    (found : find search (input.drop last) = some place) :
    (input.drop (last + place + search.length)).length < (input.drop last).length := by
  have fits := (Occurrences.find_isAt found).1.2.length_le
  have positive := List.length_pos_iff.mpr notNil
  rw [List.length_drop, List.length_drop] at fits
  rw [List.length_drop, List.length_drop]
  omega

/-- What the loop of `string_replace_nonregex` puts in a place. -/
def nonregexSubstitution (input search : List Char) (replacement : Replacement σ) (place : Place)
    (state : σ) : List Char × σ :=
  nonregexText input search replacement place.start state

theorem nonregexLoop_eq {search : List Char} (notNil : search ≠ []) (input : List Char)
    (replacement : Replacement σ) (all : Bool) (fuel last : ℕ) (state : σ)
    (enough : (input.drop last).length < fuel) :
    nonregexLoop input search replacement all fuel last state =
      substituteFrom input (nonregexSubstitution input search replacement) last
        ((chosen all (Occurrences.occurrencesFrom search last 0 (input.drop last))).map
          (textPlace search)) state := by
  induction fuel generalizing last state with
  | zero => exact absurd enough (Nat.not_lt_zero _)
  | succ fuel hypothesis =>
      rw [nonregexLoop]
      cases found : find search (input.drop last) with
      | none =>
          rw [Occurrences.occurrencesFrom_of_find_none found]
          cases all with
          | false => rfl
          | true => rfl
      | some place =>
          have less := length_drop_lt notNil found
          rw [Occurrences.occurrencesFrom_of_find notNil found, List.drop_drop, ← Nat.add_assoc]
          cases all with
          | false => rfl
          | true =>
              dsimp only
              rw [if_pos rfl, hypothesis _ _ (by omega)]
              rfl

theorem strReplace_eq {search : List Char} (notNil : search ≠ []) (input text : List Char)
    (all : Bool) (fuel last : ℕ) (state : σ) (enough : (input.drop last).length < fuel) :
    (strReplace search text all fuel (input.drop last), state) =
      substituteFrom input (fun _ state => (text, state)) last
        ((chosen all (Occurrences.occurrencesFrom search last 0 (input.drop last))).map
          (textPlace search)) state := by
  induction fuel generalizing last with
  | zero => exact absurd enough (Nat.not_lt_zero _)
  | succ fuel hypothesis =>
      rw [strReplace]
      cases found : find search (input.drop last) with
      | none =>
          rw [Occurrences.occurrencesFrom_of_find_none found]
          cases all with
          | false => rfl
          | true => rfl
      | some place =>
          have less := length_drop_lt notNil found
          have joined : (input.drop last).drop (place + search.length) =
              input.drop (last + place + search.length) := by
            rw [List.drop_drop, Nat.add_assoc]
          rw [Occurrences.occurrencesFrom_of_find notNil found]
          dsimp only
          rw [joined, ← Nat.add_assoc]
          cases all with
          | false =>
              rw [chosen_false_cons, List.map_singleton, substituteFrom, substituteFrom, textPlace,
                slice_add]
              rfl
          | true =>
              have more := hypothesis (last + place + search.length) (by omega)
              rw [chosen_true] at more
              rw [chosen_true, List.map_cons, substituteFrom, textPlace, ← more, slice_add]
              rfl

/-! ## Occurrences of a text -/

theorem expandReplaceSubstitutions_of_not_mem {template : List Char} (plain : '$' ∉ template)
    (matched before after : List Char) (captures : Option (List (Option (List Char)))) :
    expandReplaceSubstitutions matched before after captures template = template := by
  induction template with
  | nil => rfl
  | cons ch rest hypothesis =>
      rw [List.mem_cons, not_or] at plain
      have notDollar : ch ≠ '$' := fun same => plain.1 same.symm
      rw [expandReplaceSubstitutions.eq_def]
      simp [notDollar, hypothesis plain.2]

/-- For a search text that is not empty the code runs over the places of the language. -/
theorem stringReplaceNonregex_eq {search : List Char} (notNil : search ≠ []) (input : List Char)
    (replacement : Replacement σ) (all : Bool) (state : σ) :
    stringReplaceNonregex input search replacement all state =
      substituteFrom input (nonregexSubstitution input search replacement) 0
        (textPlaces input search all) state := by
  have loop := nonregexLoop_eq notNil input replacement all (input.length + 1) 0 state
    (Nat.lt_succ_self _)
  cases replacement with
  | function call =>
      rw [stringReplaceNonregex, if_neg notNil]
      exact loop
  | text template =>
      rw [stringReplaceNonregex, if_neg notNil]
      split
      · exact loop
      · rename_i plain
        refine (strReplace_eq notNil input template all (input.length + 1) 0 state
          (Nat.lt_succ_self _)).trans ?_
        refine substituteFrom_congr (fun place _ state => ?_) 0 state
        rw [nonregexSubstitution, nonregexText, expandReplaceSubstitutions_of_not_mem plain]

theorem nonregexSubstitution_text {search input : List Char} {all : Bool} {place : Place}
    (isPlace : place ∈ textPlaces input search all) (template : List Char) (state : σ) :
    nonregexSubstitution input search (.text template) place state =
      substitution input (.text template) place state := by
  rw [textPlaces_eq] at isPlace
  obtain ⟨position, isPosition, rfl⟩ := List.mem_map.mp isPlace
  have isAt := isAt_of_mem_occurrences (mem_of_mem_chosen isPosition)
  rw [nonregexSubstitution, nonregexText, substitution, textPlace, slice_of_isAt isAt,
    expandReplaceSubstitutions_none]

/-- The empty search text: a text between all characters of the rest. -/
theorem substituteFrom_range' (input text : List Char) (state : σ) (count last : ℕ)
    (isRest : input.length = last + count) :
    substituteFrom input (fun _ state => (text, state)) last
        ((List.range' (last + 1) count).map (textPlace [])) state =
      ((input.drop last).flatMap fun ch => ch :: text, state) := by
  induction count generalizing last with
  | zero =>
      have atEnd : input.drop last = [] := List.drop_eq_nil_iff.mpr (by omega)
      rw [List.range'_zero, List.map_nil, substituteFrom, atEnd]
      rfl
  | succ count hypothesis =>
      have inside : last < input.length := by omega
      rw [List.range'_succ, List.map_cons, substituteFrom, textPlace, List.length_nil,
        Nat.add_zero, hypothesis (last + 1) (by omega), slice_add,
        List.drop_eq_getElem_cons inside]
      rfl

theorem seen_text {template : List Char} (plain : ¬builtinPrefix <+: template)
    (builtin : List Char → ReplaceArgs → σ → List Char × σ) :
    (Replacement.text template).seen builtin = .text template :=
  if_neg plain

theorem seen_builtin {template : List Char} (isBuiltin : builtinPrefix <+: template)
    (builtin : List Char → ReplaceArgs → σ → List Char × σ) :
    (Replacement.text template).seen builtin = .function (builtin template) :=
  if_pos isBuiltin

theorem stringReplaceNonregex_nil (input template : List Char) (all : Bool) (state : σ) :
    stringReplaceNonregex input [] (.text template) all state =
      substituteFrom input (fun _ state => (template, state)) 0 (textPlaces input [] all) state := by
  rw [stringReplaceNonregex, if_pos rfl, textPlaces_eq, occurrences, Occurrences.occurrencesFrom_nil,
    List.range'_succ]
  cases all with
  | false => rfl
  | true =>
      have rest := substituteFrom_range' input template state input.length 0 (Nat.zero_add _).symm
      rw [if_pos rfl, chosen_true, List.map_cons, substituteFrom]
      exact congrArg (fun rest : List Char × σ => (template ++ rest.1, rest.2)) rest.symm

/-! ## Functions -/

/-- The byte position of a place is its position in the language. -/
def PositionAgrees (input : List Char) (position : ℕ) : Prop :=
  bytePosition (input.take position) = ((input.take position).flatMap charUnits).length

/-- What a function is told of a place is in the state behind the run. -/
theorem substituteFrom_log (input : List Char) (told : Place → ℤ) (last : ℕ)
    (places : List Place) (log : List ℤ) :
    (substituteFrom input (fun place log => ([], told place :: log)) last places log).2 =
      (places.map told).reverse ++ log := by
  induction places generalizing last log with
  | nil => rfl
  | cons place places hypothesis =>
      rw [substituteFrom]
      dsimp only
      rw [hypothesis, List.map_cons, List.reverse_cons, List.append_assoc]
      rfl

/-- A function that writes nothing and remembers the positions it is told. -/
def remember (args : ReplaceArgs) (log : List ℤ) : List Char × List ℤ :=
  ([], args.position :: log)

theorem substituteFrom_remember {input : List Char} {substitute : Place → List ℤ → List Char × List ℤ}
    {told : Place → ℤ} (isLog : ∀ place log, substitute place log = ([], told place :: log))
    (places : List Place) :
    (substituteFrom input substitute 0 places []).2 = (places.map told).reverse := by
  have same : substitute = fun place log => ([], told place :: log) :=
    funext fun place => funext fun log => isLog place log
  rw [same, substituteFrom_log, List.append_nil]

/-- If the function that remembers ends with the same log, the positions agree. -/
theorem positionAgrees_of_remember {input : List Char}
    {substitute : Place → List ℤ → List Char × List ℤ} {places : List Place}
    (isLog : ∀ place log, substitute place log = ([], bytePosition (input.take place.start) :: log))
    (same : substituteFrom input substitute 0 places [] =
      replaced input (.function remember) places []) :
    ∀ place ∈ places, PositionAgrees input place.start := by
  have logs := congrArg Prod.snd same
  have told : (replaced input (.function remember) places []).2 =
      (places.map fun place =>
        (((input.take place.start).flatMap charUnits).length : ℤ)).reverse :=
    substituteFrom_remember (fun _ _ => rfl) _
  rw [told, substituteFrom_remember isLog, List.reverse_inj, List.map_inj_left] at logs
  exact logs

theorem nonregexSubstitution_function {search input : List Char} {all : Bool} {place : Place}
    (isPlace : place ∈ textPlaces input search all) (agrees : PositionAgrees input place.start)
    (call : ReplaceArgs → σ → List Char × σ) (state : σ) :
    nonregexSubstitution input search (.function call) place state =
      substitution input (.function call) place state := by
  rw [textPlaces_eq] at isPlace
  obtain ⟨position, isPosition, rfl⟩ := List.mem_map.mp isPlace
  have isAt := isAt_of_mem_occurrences (mem_of_mem_chosen isPosition)
  rw [nonregexSubstitution, nonregexText, substitution, agrees]
  rw [textPlace, slice_of_isAt isAt]

/-- A run that calls a function in a place is not the replacement by a text. -/
theorem ne_replaced_of_calls {input template : List Char}
    {substitute : Place → List ℤ → List Char × List ℤ} {told : Place → ℤ}
    (isLog : ∀ place log, substitute place log = ([], told place :: log))
    {places : List Place} (notNil : places ≠ []) :
    substituteFrom input substitute 0 places [] ≠ replaced input (.text template) places [] := by
  intro same
  have logs := congrArg Prod.snd same
  rw [replaced_text_state, substituteFrom_remember isLog, List.reverse_eq_nil_iff,
    List.map_eq_nil_iff] at logs
  exact notNil logs

theorem occurrences_self_ne_nil (search : List Char) : occurrences search search ≠ [] := by
  cases search with
  | nil => exact List.cons_ne_nil _ _
  | cons ch rest =>
      have isPrefix : (ch :: rest).isPrefixOf (ch :: rest) = true :=
        List.isPrefixOf_iff_prefix.mpr (List.prefix_refl _)
      rw [occurrences, Occurrences.occurrencesFrom, if_pos isPrefix]
      exact List.cons_ne_nil _ _

theorem chosen_ne_nil {α : Type} {all : Bool} {items : List α} (notNil : items ≠ []) :
    chosen all items ≠ [] := by
  cases items with
  | nil => exact absurd rfl notNil
  | cons item items =>
      cases all with
      | false | true => exact List.cons_ne_nil _ _

/-- The replacement by a template is right for every input exactly if the template is not
called, and the search text is not empty or the template has no reference. -/
theorem stringReplaceNonregex_text_iff (search template : List Char) (all : Bool) :
    (∀ (σ : Type) (builtin : List Char → ReplaceArgs → σ → List Char × σ) (input : List Char)
        (state : σ), stringReplaceNonregex input search ((Replacement.text template).seen builtin) all state =
          replaced input (.text template) (textPlaces input search all) state) ↔
      ¬builtinPrefix <+: template ∧ (search ≠ [] ∨ ¬HasReference template) := by
  constructor
  · intro right
    have plain : ¬builtinPrefix <+: template := by
      intro isBuiltin
      have same := right (List ℤ) (fun _ => remember) search []
      have notNil : textPlaces search search all ≠ [] := by
        rw [textPlaces_eq, Ne, List.map_eq_nil_iff]
        exact chosen_ne_nil (occurrences_self_ne_nil search)
      by_cases isNil : search = []
      · subst isNil
        have logs := congrArg Prod.snd same
        rw [replaced_text_state, seen_builtin isBuiltin, stringReplaceNonregex, if_pos rfl] at logs
        cases all with
        | false | true => exact List.cons_ne_nil _ _ logs
      · rw [seen_builtin isBuiltin, stringReplaceNonregex_eq isNil] at same
        exact ne_replaced_of_calls (fun _ _ => rfl) notNil same
    refine ⟨plain, ?_⟩
    by_cases isNil : search = []
    · subst isNil
      refine .inr fun reference => getSubstitution_ne_of_hasReference reference ?_
      have same := congrArg Prod.fst (right Unit (fun _ _ state => ([], state)) [] ())
      rw [seen_text plain, stringReplaceNonregex_nil] at same
      cases all with
      | false | true =>
          change [] ++ template ++ [] = [] ++ getSubstitution [] [] [] [] template ++ [] at same
          rw [List.append_nil, List.append_nil, List.nil_append, List.nil_append] at same
          exact same.symm
    · exact .inl isNil
  · rintro ⟨plain, holds⟩ σ builtin input state
    rw [seen_text plain]
    by_cases isNil : search = []
    · subst isNil
      have constant := holds.resolve_left fun notNil => notNil rfl
      rw [stringReplaceNonregex_nil, replaced]
      refine substituteFrom_congr (fun place isPlace state => ?_) 0 state
      rw [textPlaces_eq] at isPlace
      obtain ⟨position, -, rfl⟩ := List.mem_map.mp isPlace
      rw [substitution, textPlace, getSubstitution_of_not_hasReference constant]
    · rw [stringReplaceNonregex_eq isNil, replaced]
      exact substituteFrom_congr
        (fun place isPlace state => nonregexSubstitution_text isPlace template state) 0 state

/-- The replacement by a function is right exactly if the function is called once when the
search text is empty, and if the positions agree otherwise. -/
theorem stringReplaceNonregex_function_iff (input search : List Char) (all : Bool) :
    (∀ (σ : Type) (builtin : List Char → ReplaceArgs → σ → List Char × σ)
        (call : ReplaceArgs → σ → List Char × σ) (state : σ),
        stringReplaceNonregex input search ((Replacement.function call).seen builtin) all state =
          replaced input (.function call) (textPlaces input search all) state) ↔
      (search = [] → all = false ∨ input = []) ∧
        (search ≠ [] → ∀ place ∈ textPlaces input search all, PositionAgrees input place.start) := by
  by_cases isNil : search = []
  · subst isNil
    have first : textPlace [] 0 = ⟨0, 0, []⟩ := rfl
    constructor
    · intro right
      refine ⟨fun _ => ?_, fun notNil => absurd rfl notNil⟩
      have logs := congrArg Prod.snd (right (List ℤ) (fun _ => remember) remember [])
      have told : (replaced input (.function remember) (textPlaces input [] all) []).2 =
          ((textPlaces input [] all).map fun place =>
            (((input.take place.start).flatMap charUnits).length : ℤ)).reverse :=
        substituteFrom_remember (fun _ _ => rfl) _
      have once : (stringReplaceNonregex input [] (.function remember) all []).2 = [0] := by
        rw [stringReplaceNonregex, if_pos rfl]
        cases all with
        | false => rfl
        | true => rfl
      rw [Replacement.seen, told, once] at logs
      have counts := congrArg List.length logs
      rw [List.length_reverse, List.length_map, textPlaces_eq, List.length_map, occurrences,
        Occurrences.occurrencesFrom_nil] at counts
      cases all with
      | false => exact .inl rfl
      | true =>
          rw [chosen_true, List.length_range'] at counts
          exact .inr (List.length_eq_zero_iff.mp (Nat.succ.inj counts).symm)
    · rintro ⟨single, -⟩ σ builtin call state
      have places : textPlaces input [] all = [textPlace [] 0] := by
        rw [textPlaces_eq, occurrences, Occurrences.occurrencesFrom_nil, List.range'_succ]
        obtain rfl | rfl := single rfl
        · rfl
        · cases all with
          | false => rfl
          | true => rfl
      rw [Replacement.seen, places, replaced, substituteFrom, substituteFrom,
        stringReplaceNonregex, if_pos rfl]
      obtain rfl | rfl := single rfl
      · rfl
      · cases all with
        | false => rfl
        | true => rfl
  · constructor
    · intro right
      refine ⟨fun isEmpty => absurd isEmpty isNil, fun _ => ?_⟩
      have same := right (List ℤ) (fun _ => remember) remember []
      rw [stringReplaceNonregex_eq isNil] at same
      exact positionAgrees_of_remember (fun _ _ => rfl) same
    · rintro ⟨-, agrees⟩ σ builtin call state
      rw [stringReplaceNonregex_eq isNil, replaced]
      exact substituteFrom_congr (fun place isPlace state =>
        nonregexSubstitution_function isPlace (agrees isNil place isPlace) call state) 0 state

/-! ## Matches of an expression -/

/-- The matches of an expression do not overlap, come in order and stay inside of the input,
as do their groups. -/
inductive MatchesInOrder (input : List Char) : ℕ → List Captures → Prop
  | nil (least : ℕ) : MatchesInOrder input least []
  | cons {least start stop : ℕ} {groups : Captures} {rest : List Captures}
      (ordered : least ≤ start) (fits : start ≤ stop) (inside : stop ≤ input.length)
      (groupsInside : ∀ span : ℕ × ℕ, some span ∈ groups →
        span.1 ≤ span.2 ∧ span.2 ≤ input.length)
      (later : MatchesInOrder input stop rest) :
      MatchesInOrder input least ((some (start, stop) :: groups) :: rest)

/-- The place of a match. -/
def regexPlace (input : List Char) (captures : Captures) : Option Place :=
  (captures.span 0).map fun span => ⟨span.1, span.2, groupTexts input (captures.drop 1)⟩

/-- The places of the matches of an expression. -/
def regexPlaces (input : List Char) (found : List Captures) (all : Bool) : List Place :=
  chosen all (found.filterMap (regexPlace input))

/-- What `string_replace_regex` puts in a place. -/
def regexSubstitution (input : List Char) (replacement : Replacement σ) (place : Place)
    (state : σ) : List Char × σ :=
  match replacement with
  | .text template =>
      (expandReplaceSubstitutions (slice input place.start place.stop) (input.take place.start)
        (input.drop place.stop)
        (some (some (slice input place.start place.stop) :: place.captures)) template, state)
  | .function call =>
      call ⟨slice input place.start place.stop, place.captures,
        bytePosition (input.take place.start), input⟩ state

theorem regexText_eq (input : List Char) (replacement : Replacement σ) (start stop : ℕ)
    (groups : Captures) (state : σ) :
    regexText input replacement (some (start, stop) :: groups) start stop state =
      regexSubstitution input replacement ⟨start, stop, groupTexts input groups⟩ state := by
  cases replacement with
  | text _ => rfl
  | function _ => rfl

/-- The loop of `string_replace_regex` runs over the places of the matches. -/
theorem stringReplaceRegex_eq {input : List Char} {least : ℕ} {found : List Captures}
    (inOrder : MatchesInOrder input least found) (replacement : Replacement σ) (all : Bool)
    (last : ℕ) (state : σ) :
    stringReplaceRegex input replacement all last (found.map some) state =
      substituteFrom input (regexSubstitution input replacement) last (regexPlaces input found all)
        state := by
  induction inOrder generalizing last state with
  | nil least =>
      cases all with
      | false => rfl
      | true => rfl
  | @cons least start stop groups rest ordered fits inside groupsInside later hypothesis =>
      have isPlace : regexPlace input (some (start, stop) :: groups) =
          some ⟨start, stop, groupTexts input groups⟩ := rfl
      rw [List.map_cons, stringReplaceRegex, regexPlaces, List.filterMap_cons_some isPlace]
      have isSpan : Captures.span (some (start, stop) :: groups) 0 = some (start, stop) := rfl
      rw [isSpan]
      dsimp only
      rw [regexText_eq]
      cases all with
      | false => rfl
      | true =>
          rw [if_pos rfl, hypothesis, chosen_true, substituteFrom]
          rfl

theorem groupTexts_isSome (input : List Char) (groups : Captures) :
    (groupTexts input groups).map Option.isSome = groups.map Option.isSome := by
  rw [groupTexts, List.map_map]
  refine List.map_congr_left fun group _ => ?_
  cases group with
  | none => rfl
  | some _ => rfl

/-- Groups at the begin of an input. -/
def emptyGroups (isDefined : List Bool) : Captures :=
  isDefined.map fun defined => if defined then some (0, 0) else none

theorem emptyGroups_isSome (isDefined : List Bool) :
    (emptyGroups isDefined).map Option.isSome = isDefined := by
  rw [emptyGroups, List.map_map]
  conv_rhs => rw [← List.map_id isDefined]
  refine List.map_congr_left fun defined _ => ?_
  cases defined with
  | false => rfl
  | true => rfl

theorem groupTexts_emptyGroups (input : List Char) (isDefined : List Bool) :
    groupTexts input (emptyGroups isDefined) = emptyCaptures isDefined := by
  rw [groupTexts, emptyGroups, emptyCaptures, List.map_map]
  refine List.map_congr_left fun defined _ => ?_
  cases defined with
  | false => rfl
  | true => rfl

/-- Which captures of the matches are defined. -/
def definedness (found : List Captures) : List (List Bool) :=
  found.map fun captures => (captures.drop 1).map Option.isSome

/-- The places of matches that are replaced are those of the matches that are chosen. -/
theorem regexPlaces_eq {input : List Char} {least : ℕ} {found : List Captures}
    (inOrder : MatchesInOrder input least found) (all : Bool) :
    regexPlaces input found all = (chosen all found).filterMap (regexPlace input) := by
  cases all with
  | true => rfl
  | false =>
      cases inOrder with
      | nil _ => rfl
      | cons => rfl

/-- A place that is replaced has the captures of a match, with their definedness. -/
theorem captures_of_mem_regexPlaces {input : List Char} {least : ℕ} {found : List Captures}
    (inOrder : MatchesInOrder input least found) {all : Bool} {place : Place}
    (isPlace : place ∈ regexPlaces input found all) :
    ∃ captures : Captures, (captures.drop 1).map Option.isSome ∈ chosen all (definedness found) ∧
      place.captures = groupTexts input (captures.drop 1) := by
  rw [regexPlaces_eq inOrder] at isPlace
  obtain ⟨captures, isFound, isPlaced⟩ := List.mem_filterMap.mp isPlace
  obtain ⟨span, -, rfl⟩ := Option.map_eq_some_iff.mp isPlaced
  refine ⟨captures, ?_, rfl⟩
  have chosenMap : chosen all (definedness found) = definedness (chosen all found) := by
    cases all with
    | true => rfl
    | false => exact List.map_take.symm
  rw [chosenMap]
  exact List.mem_map_of_mem isFound

/-- Long matches one behind the other. -/
def longMatches (start : ℕ) : List (List Bool) → List Captures
  | [] => []
  | isDefined :: rest =>
      (some (start, start + 4) :: emptyGroups isDefined) :: longMatches (start + 4) rest

/-- Their places. -/
def longPlaces (start : ℕ) : List (List Bool) → List Place
  | [] => []
  | isDefined :: rest =>
      ⟨start, start + 4, emptyCaptures isDefined⟩ :: longPlaces (start + 4) rest

/-- An input for so many long matches. -/
def longInput (count : ℕ) : List Char := List.replicate (4 * count) 'a'

theorem definedness_longMatches (start : ℕ) (pattern : List (List Bool)) :
    definedness (longMatches start pattern) = pattern := by
  induction pattern generalizing start with
  | nil => rfl
  | cons isDefined rest hypothesis =>
      have first : ((some (start, start + 4) :: emptyGroups isDefined).drop 1).map Option.isSome =
          isDefined := emptyGroups_isSome isDefined
      rw [longMatches, definedness, List.map_cons, first]
      exact congrArg (isDefined :: ·) (hypothesis (start + 4))

theorem longMatches_inOrder (input : List Char) (start : ℕ) (pattern : List (List Bool))
    (fits : start + 4 * pattern.length ≤ input.length) :
    MatchesInOrder input start (longMatches start pattern) := by
  induction pattern generalizing start with
  | nil => exact .nil start
  | cons isDefined rest hypothesis =>
      rw [List.length_cons] at fits
      refine .cons (Nat.le_refl _) (by omega) (by omega) ?_ (hypothesis (start + 4) (by omega))
      intro span isSpan
      obtain ⟨defined, -, same⟩ := List.mem_map.mp isSpan
      cases defined with
      | false => cases same
      | true =>
          cases same
          exact ⟨Nat.le_refl 0, Nat.zero_le _⟩

theorem regexPlaces_longMatches (input : List Char) (all : Bool) (start : ℕ)
    (pattern : List (List Bool)) :
    regexPlaces input (longMatches start pattern) all = longPlaces start (chosen all pattern) := by
  have places (start : ℕ) (pattern : List (List Bool)) :
      (longMatches start pattern).filterMap (regexPlace input) = longPlaces start pattern := by
    induction pattern generalizing start with
    | nil => rfl
    | cons isDefined rest hypothesis =>
        have isPlace : regexPlace input (some (start, start + 4) :: emptyGroups isDefined) =
            some ⟨start, start + 4, emptyCaptures isDefined⟩ :=
          congrArg (fun captures => some (Place.mk start (start + 4) captures))
            (groupTexts_emptyGroups input isDefined)
        rw [longMatches, List.filterMap_cons_some isPlace, hypothesis, longPlaces]
  rw [regexPlaces, places]
  cases all with
  | true => rfl
  | false =>
      cases pattern with
      | nil => rfl
      | cons _ _ => rfl

/-- A long place holds a long match, with the captures of an item of the pattern. -/
theorem mem_longPlaces {start count : ℕ} {pattern : List (List Bool)} {place : Place}
    (fits : start + 4 * pattern.length ≤ 4 * count) (isPlace : place ∈ longPlaces start pattern) :
    slice (longInput count) place.start place.stop = longMatch ∧
      ∃ isDefined ∈ pattern, place.captures = emptyCaptures isDefined := by
  induction pattern generalizing start with
  | nil => exact absurd isPlace List.not_mem_nil
  | cons isDefined rest hypothesis =>
      rw [List.length_cons] at fits
      obtain rfl | isLater := List.mem_cons.mp isPlace
      · refine ⟨?_, isDefined, List.mem_cons_self, rfl⟩
        dsimp only
        rw [slice, longInput, List.drop_replicate, List.take_replicate, Nat.add_sub_cancel_left,
          Nat.min_eq_left (by omega)]
        rfl
      · obtain ⟨isLong, other, isOther, same⟩ := hypothesis (by omega) isLater
        exact ⟨isLong, other, List.mem_cons_of_mem _ isOther, same⟩

theorem exists_longPlace (start : ℕ) {pattern : List (List Bool)} {isDefined : List Bool}
    (isItem : isDefined ∈ pattern) :
    ∃ place ∈ longPlaces start pattern, place.captures = emptyCaptures isDefined := by
  induction pattern generalizing start with
  | nil => exact absurd isItem List.not_mem_nil
  | cons first rest hypothesis =>
      obtain rfl | isLater := List.mem_cons.mp isItem
      · exact ⟨_, List.mem_cons_self, rfl⟩
      · obtain ⟨place, isPlace, same⟩ := hypothesis (start + 4) isLater
        exact ⟨place, List.mem_cons_of_mem _ isPlace, same⟩

/-- The replacement of matches by a template is right for every input exactly if, for each
match that is replaced, the template is not called and its references are read alike. -/
theorem stringReplaceRegex_text_iff (template : List Char) (pattern : List (List Bool))
    (all : Bool) :
    (∀ (σ : Type) (builtin : List Char → ReplaceArgs → σ → List Char × σ) (input : List Char)
        (found : List Captures) (state : σ),
        MatchesInOrder input 0 found → definedness found = pattern →
        stringReplaceRegex input ((Replacement.text template).seen builtin) all 0 (found.map some) state =
          replaced input (.text template) (regexPlaces input found all) state) ↔
      ∀ isDefined ∈ chosen all pattern,
        ¬builtinPrefix <+: template ∧ ReadsSame isDefined template := by
  constructor
  · intro right isDefined isItem
    have inOrder : MatchesInOrder (longInput pattern.length) 0 (longMatches 0 pattern) := by
      refine longMatches_inOrder _ 0 pattern ?_
      rw [longInput, List.length_replicate, Nat.zero_add]
    obtain ⟨place, isPlace, sameCaptures⟩ := exists_longPlace 0 isItem
    have plain : ¬builtinPrefix <+: template := by
      intro isBuiltin
      have same := right (List ℤ) (fun _ => remember) _ _ [] inOrder
        (definedness_longMatches 0 pattern)
      rw [seen_builtin isBuiltin, stringReplaceRegex_eq inOrder, regexPlaces_longMatches] at same
      exact ne_replaced_of_calls (fun _ _ => rfl) (List.ne_nil_of_mem isPlace) same
    refine ⟨plain, ?_⟩
    by_contra differs
    have same := right Unit (fun _ _ state => ([], state)) _ _ () inOrder
      (definedness_longMatches 0 pattern)
    rw [seen_text plain, stringReplaceRegex_eq inOrder, regexPlaces_longMatches] at same
    have fits : 0 + 4 * (chosen all pattern).length ≤ 4 * pattern.length := by
      have shorter : (chosen all pattern).length ≤ pattern.length := by
        cases all with
        | true => exact Nat.le_refl _
        | false => exact List.length_take_le' 1 pattern
      omega
    -- the code writes no less in any of the places, and more in this one
    have each : ∀ place ∈ longPlaces 0 (chosen all pattern), ∀ state : Unit,
        (substitution (longInput pattern.length) (.text template) place state).1.length ≤
            (regexSubstitution (longInput pattern.length) (.text template) place
              state).1.length ∧
          (substitution (longInput pattern.length) (.text template) place state).2 = state ∧
          (regexSubstitution (longInput pattern.length) (.text template) place state).2 =
            state := by
      intro place isPlace state
      obtain ⟨isLong, other, -, same⟩ := mem_longPlaces fits isPlace
      refine ⟨?_, rfl, rfl⟩
      rw [substitution, regexSubstitution, isLong, same]
      exact (length_expandReplaceSubstitutions_ge other _ _ template).1
    have longer := (length_substituteFrom_ge (longInput pattern.length) each 0 ()).2 ⟨place, isPlace, by
      rw [substitution, regexSubstitution, (mem_longPlaces fits isPlace).1, sameCaptures]
      exact (length_expandReplaceSubstitutions_ge isDefined _ _ template).2 differs⟩
    rw [same, replaced] at longer
    exact Nat.lt_irrefl _ longer
  · rintro reads σ builtin input found state inOrder rfl
    rw [replaced]
    by_cases plain : builtinPrefix <+: template
    · -- nothing is replaced
      have nothing : chosen all (definedness found) = [] := by
        rw [List.eq_nil_iff_forall_not_mem]
        exact fun isDefined isItem => (reads isDefined isItem).1 plain
      have noMatch : found = [] := by
        by_contra some
        refine chosen_ne_nil ?_ nothing
        rwa [definedness, Ne, List.map_eq_nil_iff]
      rw [noMatch]
      cases all with
      | false | true => rfl
    · rw [seen_text plain, stringReplaceRegex_eq inOrder]
      refine substituteFrom_congr (fun place isPlace state => ?_) 0 state
      obtain ⟨captures, isChosen, same⟩ := captures_of_mem_regexPlaces inOrder isPlace
      rw [regexSubstitution, substitution, expandReplaceSubstitutions_eq_getSubstitution]
      rw [same, groupTexts_isSome]
      exact (reads _ isChosen).2

/-- The replacement of matches by a function is right exactly if the positions agree. -/
theorem stringReplaceRegex_function_iff {input : List Char} {found : List Captures} (all : Bool)
    (inOrder : MatchesInOrder input 0 found) :
    (∀ (σ : Type) (builtin : List Char → ReplaceArgs → σ → List Char × σ)
        (call : ReplaceArgs → σ → List Char × σ) (state : σ),
        stringReplaceRegex input ((Replacement.function call).seen builtin) all 0 (found.map some) state =
          replaced input (.function call) (regexPlaces input found all) state) ↔
      ∀ place ∈ regexPlaces input found all, PositionAgrees input place.start := by
  constructor
  · intro right
    have same := right (List ℤ) (fun _ => remember) remember []
    rw [Replacement.seen, stringReplaceRegex_eq inOrder] at same
    exact positionAgrees_of_remember (fun _ _ => rfl) same
  · intro agrees σ builtin call state
    rw [Replacement.seen, stringReplaceRegex_eq inOrder, replaced]
    refine substituteFrom_congr (fun place isPlace state => ?_) 0 state
    rw [regexSubstitution, substitution, agrees place isPlace]

end Replacing
end Script
end MuonJs
