import MuonJs.Cache.Scan

/-!
# A full SCAN of an unchanged keyspace

The calls of a full iteration with one count, on databases whose live matching
keys stay the same.  The cursor grows by the count and never overflows, because
it passes the length of the list first; a count of zero ends the iteration at
once.
-/

namespace MuonJs
namespace Cache

namespace ScanStep

/-- The live keys that match the pattern, as the call lists them. -/
def matching (step : ScanStep) (pattern : Bytes) : List Bytes :=
  matchingKeys step.clock pattern step.state.db

/-- The reply to a cursor inside the list. -/
theorem reply_of_inside
    {context : HandlerContext} {step : ScanStep} {pattern : Bytes} {count cursor : ℕ}
    (parsed : Handler.scanOptions (asBytes "*") 10 step.options = .ok (pattern, count))
    (inside : cursor ≤ (step.matching pattern).length) (noOverflow : cursor + count < 2 ^ 64) :
    step.reply context (natBytes cursor) =
      let keys := step.matching pattern
      let stop := min (cursor + count) keys.length
      some (.array [.blob (natBytes (if keys.length ≤ stop then 0 else stop)),
        .blobs ((keys.take stop).drop cursor)]) := by
  have replied : step.reply context (natBytes cursor) = _ :=
    Handler.runChecked_scan (by omega) parsed step.state
  rw [replied]
  dsimp only
  rw [← matching, Nat.min_eq_left inside, Nat.mod_eq_of_lt noOverflow, if_pos]
  exact Nat.le_min.mpr ⟨Nat.le_add_right cursor count, inside⟩

end ScanStep

/-- The calls all have these options, and between them the live keys that match
the pattern do not change. -/
structure Unchanging (steps : ℕ → ScanStep) (options : List Bytes) (pattern : Bytes) :
    Prop where
  options_eq : ∀ n, (steps n).options = options
  matching_eq : ∀ n, (steps n).matching pattern = (steps 0).matching pattern

/-- Finitely many calls from the cursor `0` return every live key that matches
exactly once, and none of them ends the process. -/
def ScanExact (context : HandlerContext) (steps : ℕ → ScanStep) (pattern : Bytes) : Prop :=
  ∃ (calls : ℕ) (keys : List Bytes),
    fullScan context (asBytes "0") ((List.range calls).map steps) =
        some (keys.map .blob) ∧
      keys.Nodup ∧
      ∀ key, key ∈ keys ↔ Glob.globMatch key pattern = true ∧
        ((steps 0).state.db.visible ((steps 0).clock (shardIndex key).val) key).isSome = true

section

variable {context : HandlerContext} {steps : ℕ → ScanStep} {options : List Bytes}
  {pattern : Bytes} {count : ℕ}

/-- One call of an iteration: the last one, or one that moves the cursor. -/
theorem fullScan_call
    (unchanging : Unchanging steps options pattern)
    (parsed : Handler.scanOptions (asBytes "*") 10 options = .ok (pattern, count))
    (first : ℕ) (rest : List ScanStep) {cursor : ℕ}
    (inside : cursor ≤ ((steps 0).matching pattern).length)
    (noOverflow : cursor + count < 2 ^ 64) :
    fullScan context (natBytes cursor) (steps first :: rest) =
      let keys := (steps 0).matching pattern
      if keys.length ≤ cursor + count ∨ cursor + count = 0 then
        if rest.isEmpty then some (((keys.take (cursor + count)).drop cursor).map .blob)
        else none
      else
        (fullScan context (natBytes (cursor + count)) rest).map fun others =>
          ((keys.take (cursor + count)).drop cursor).map .blob ++ others := by
  have sameOptions := unchanging.options_eq first
  have sameKeys := unchanging.matching_eq first
  rw [← sameOptions] at parsed
  rw [← sameKeys] at inside ⊢
  rw [fullScan, ScanStep.reply_of_inside parsed inside noOverflow]
  dsimp only
  generalize (steps first).matching pattern = keys at inside ⊢
  simp only [Option.bind_some, scanPage, RespValue.blobs]
  by_cases isEnd : keys.length ≤ cursor + count
  · rw [Nat.min_eq_right isEnd, if_pos le_rfl, if_pos (show natBytes 0 = asBytes "0" from rfl),
      if_pos (Or.inl isEnd), List.take_length, List.take_of_length_le isEnd]
  · rw [Nat.min_eq_left (not_le.mp isEnd).le, if_neg isEnd]
    by_cases still : cursor + count = 0
    · rw [still, if_pos (show natBytes 0 = asBytes "0" from rfl), if_pos (Or.inr rfl)]
    · have notLast : natBytes (cursor + count) ≠ asBytes "0" :=
        fun same => still (natBytes_injective same)
      rw [if_neg notLast, if_neg (not_or.mpr ⟨isEnd, still⟩)]

/-- From a cursor on, a positive count returns what is left of the list. -/
theorem fullScan_rest
    (unchanging : Unchanging steps options pattern)
    (parsed : Handler.scanOptions (asBytes "*") 10 options = .ok (pattern, count))
    (fits : ((steps 0).matching pattern).length < 2 ^ 63) (positive : 0 < count)
    {left cursor : ℕ} (first : ℕ)
    (isLeft : ((steps 0).matching pattern).length ≤ cursor + left)
    (moved : cursor = 0 ∨ count ≤ cursor ∧ cursor < ((steps 0).matching pattern).length) :
    ∃ calls,
      fullScan context (natBytes cursor) ((List.range' first calls).map steps) =
        some ((((steps 0).matching pattern).drop cursor).map .blob) := by
  have countInRange := Handler.scanOptions_count_lt (by decide) parsed
  have call (first cursor : ℕ) (rest : List ScanStep)
      (moved : cursor = 0 ∨ count ≤ cursor ∧ cursor < ((steps 0).matching pattern).length) :=
    @fullScan_call context steps options pattern count unchanging parsed first rest cursor
      (by omega) (by omega)
  dsimp only at call
  generalize (steps 0).matching pattern = keys at fits isLeft moved call ⊢
  induction left generalizing cursor first with
  | zero =>
      refine ⟨1, ?_⟩
      rw [List.range'_one, List.map_singleton, call first cursor [] moved,
        if_pos (Or.inl (by omega)), if_pos List.isEmpty_nil, List.take_of_length_le (by omega)]
  | succ left ih =>
      by_cases isEnd : keys.length ≤ cursor + count
      · refine ⟨1, ?_⟩
        rw [List.range'_one, List.map_singleton, call first cursor [] moved,
          if_pos (Or.inl isEnd), if_pos List.isEmpty_nil, List.take_of_length_le isEnd]
      · obtain ⟨calls, rest⟩ := @ih (cursor + count) (first + 1) (by omega) (by omega)
        refine ⟨calls + 1, ?_⟩
        rw [List.range'_succ, List.map_cons, call first cursor _ moved, if_neg (by omega), rest,
          Option.map_some, ← List.map_append]
        congr 2
        have taken : (keys.take (cursor + count)).drop cursor ++ keys.drop (cursor + count) =
            ((keys.take (cursor + count)) ++ keys.drop (cursor + count)).drop cursor := by
          rw [List.drop_append_of_le_length (by rw [List.length_take]; omega)]
        rw [taken, List.take_append_drop]

/-- An iteration with the count zero ends with its first call and returns
nothing. -/
theorem fullScan_zero
    (unchanging : Unchanging steps options pattern)
    (parsed : Handler.scanOptions (asBytes "*") 10 options = .ok (pattern, 0))
    {calls : ℕ} {found : List RespValue}
    (full : fullScan context (asBytes "0") ((List.range calls).map steps) = some found) :
    found = [] := by
  rw [show asBytes "0" = natBytes 0 from rfl, List.range_eq_range'] at full
  cases calls with
  | zero => cases full
  | succ calls =>
      rw [List.range'_succ, List.map_cons,
        fullScan_call unchanging parsed 0 _ (Nat.zero_le _) (by decide)] at full
      dsimp only at full
      rw [if_pos (Or.inr rfl), Nat.add_zero, List.take_zero, List.drop_nil, List.map_nil] at full
      split at full
      · exact (Option.some.inj full).symm
      · cases full

/-- The listed keys are the live ones that match. -/
theorem mem_matching (step : ScanStep) (pattern key : Bytes) :
    key ∈ step.matching pattern ↔ Glob.globMatch key pattern = true ∧
      (step.state.db.visible (step.clock (shardIndex key).val) key).isSome = true :=
  mem_matchingKeys step.clock pattern key step.state.db

/-- A full iteration is exact unless its count is zero and there is a key to
return. -/
theorem scan_exact_iff
    (unchanging : Unchanging steps options pattern)
    (parsed : Handler.scanOptions (asBytes "*") 10 options = .ok (pattern, count))
    (fits : ((steps 0).matching pattern).length < 2 ^ 63) :
    ScanExact context steps pattern ↔
      count ≠ 0 ∨ ∀ key, Glob.globMatch key pattern = true →
        (steps 0).state.db.visible ((steps 0).clock (shardIndex key).val) key = none := by
  have distinct : ((steps 0).matching pattern).Nodup := matchingKeys_nodup _ _ _
  constructor
  · rintro ⟨calls, keys, full, -, isKey⟩
    by_cases zero : count = 0
    · refine Or.inr fun key isMatch => ?_
      subst zero
      have nothing := List.map_eq_nil_iff.mp (fullScan_zero unchanging parsed full)
      rw [← Option.not_isSome_iff_eq_none]
      intro isLive
      have listed := (isKey key).mpr ⟨isMatch, isLive⟩
      rw [nothing] at listed
      cases listed
    · exact Or.inl zero
  · intro condition
    by_cases zero : count = 0
    · have nothing : (steps 0).matching pattern = [] := by
        refine List.eq_nil_iff_forall_not_mem.mpr fun key listed => ?_
        obtain ⟨isMatch, isLive⟩ := (mem_matching _ _ _).mp listed
        rw [(condition.resolve_left fun nonzero => nonzero zero) key isMatch] at isLive
        cases isLive
      refine ⟨1, [], ?_, List.nodup_nil, fun key => ?_⟩
      · subst zero
        have call := @fullScan_call context steps options pattern 0 unchanging parsed 0 [] 0
          (Nat.zero_le _) (by decide)
        dsimp only at call
        rw [if_pos (Or.inr rfl), if_pos List.isEmpty_nil, nothing] at call
        exact call
      · rw [← nothing]
        exact mem_matching _ _ _
    · obtain ⟨calls, full⟩ := @fullScan_rest context steps options pattern count unchanging parsed
        fits (Nat.pos_of_ne_zero zero) ((steps 0).matching pattern).length 0 0
        (Nat.le_add_left _ _) (Or.inl rfl)
      rw [← List.range_eq_range'] at full
      exact ⟨calls, (steps 0).matching pattern, full, distinct, fun key => mem_matching _ _ _⟩

end

/-- The same call on the same two keys, again and again. -/
theorem unchanging_scanOne (keys : List Bytes) :
    Unchanging (fun _ => scanOne keys) [asBytes "COUNT", asBytes "1"] (asBytes "*") :=
  ⟨fun _ => rfl, fun _ => rfl⟩

/-- Two keys, scanned one by one. -/
theorem scan_exact_oneByOne :
    ScanExact ⟨none, false⟩ (fun _ => scanOne [asBytes "a", asBytes "b"]) (asBytes "*") := by
  have listed : (scanOne [asBytes "a", asBytes "b"]).matching (asBytes "*") =
      [asBytes "a", asBytes "b"] := matchingKeys_withKeys (by decide)
  refine (@scan_exact_iff ⟨none, false⟩ _ _ _ 1 (unchanging_scanOne _) rfl ?_).mpr
    (Or.inl (by decide))
  rw [listed]
  decide

/-- `SCAN 0 COUNT 0` returns the cursor `0` and no key. -/
theorem scan_not_always_exact :
    ¬∀ (context : HandlerContext) (steps : ℕ → ScanStep) (options : List Bytes)
      (pattern : Bytes) (count : ℕ), Unchanging steps options pattern →
      Handler.scanOptions (asBytes "*") 10 options = .ok (pattern, count) →
      ((steps 0).matching pattern).length < 2 ^ 63 → ScanExact context steps pattern := by
  intro exact_
  have listed : (scanOne [asBytes "a"]).matching (asBytes "*") = [asBytes "a"] :=
    matchingKeys_withKeys (by decide)
  have unchanging : Unchanging (fun _ => { scanOne [asBytes "a"] with
      options := [asBytes "COUNT", asBytes "0"] }) [asBytes "COUNT", asBytes "0"]
      (asBytes "*") := ⟨fun _ => rfl, fun _ => rfl⟩
  obtain ⟨calls, keys, full, -, isKey⟩ :=
    exact_ ⟨none, false⟩ _ _ (asBytes "*") 0 unchanging rfl (by
      change ((scanOne [asBytes "a"]).matching (asBytes "*")).length < 2 ^ 63
      rw [listed]
      decide)
  have nothing := List.map_eq_nil_iff.mp (fullScan_zero unchanging rfl full)
  have inList : asBytes "a" ∈ (scanOne [asBytes "a"]).matching (asBytes "*") := by
    rw [listed]
    exact List.mem_singleton.mpr rfl
  have found := (isKey (asBytes "a")).mpr ((mem_matching _ _ _).mp inList)
  rw [nothing] at found
  cases found

end Cache
end MuonJs
