import MuonJs.Cache.Sessions
import MuonJs.Lib.RingBuffer

/-!
# Ranges of a list

`list_range` copies a range out of the two slices of a ring buffer,
`list_trim` cuts the ring buffer down to one.  Each brings negative and
out-of-range positions into the list in its own way.  Both are modelled on the
ring buffer itself, with their panics, and compared with the positions the
bounds stand for.
-/

namespace MuonJs
namespace Cache
namespace Shard

/-! ## Lengths and positions as integers -/

theorem toInt_lenI64 {items : List α} (fits : items.length < 2 ^ 63) :
    (lenI64 items).toInt = items.length :=
  Int64.toInt_ofNat_of_lt fits

/-- A negative position is added to the length without overflow. -/
theorem toInt_lenI64_add
    {items : List α} (fits : items.length < 2 ^ 63)
    {index : Int64} (negative : index < 0) :
    (lenI64 items + index).toInt = items.length + index.toInt := by
  have below : index.toInt < 0 := Int64.lt_iff_toInt_lt.mp negative
  have above : -2 ^ 63 ≤ index.toInt := Int64.le_toInt index
  rw [Int64.toInt_add, toInt_lenI64 fits]
  exact Int.bmod_eq_of_le (by omega) (by omega)

/-- The position an index stands for: negative ones count from the end. -/
def normalIndex (length : ℕ) (index : Int64) : ℤ :=
  if 0 ≤ index.toInt then index.toInt else length + index.toInt

/-- The position both methods compute first. -/
theorem toInt_normalIndex
    {items : List α} (fits : items.length < 2 ^ 63) (index : Int64) :
    (if index < 0 then lenI64 items + index else index).toInt =
      normalIndex items.length index := by
  rw [normalIndex]
  by_cases negative : index < 0
  · have below : index.toInt < 0 := Int64.lt_iff_toInt_lt.mp negative
    rw [if_pos negative, toInt_lenI64_add fits negative, if_neg (by omega)]
  · have above : ¬index.toInt < 0 := fun below => negative (Int64.lt_iff_toInt_lt.mpr below)
    rw [if_neg negative, if_pos (by omega)]

/-- A start before the list is moved to its first position. -/
theorem toInt_clampStart (index : Int64) :
    (if index < 0 then 0 else index : Int64).toInt = max 0 index.toInt := by
  have zeroInt : (0 : Int64).toInt = 0 := rfl
  split
  case isTrue negative =>
    rw [Int64.lt_iff_toInt_lt] at negative
    omega
  case isFalse natural =>
    rw [Int64.lt_iff_toInt_lt] at natural
    omega

theorem toInt_lenI64_sub_one {items : List α} (fits : items.length < 2 ^ 63) :
    (lenI64 items - 1).toInt = items.length - 1 := by
  have oneInt : (1 : Int64).toInt = 1 := rfl
  rw [Int64.toInt_sub, toInt_lenI64 fits, oneInt]
  exact Int.bmod_eq_of_le (by omega) (by omega)

/-- A stop past the list is moved to its last position. -/
theorem toInt_clampStop
    {items : List α} (fits : items.length < 2 ^ 63) (index : Int64) :
    (if lenI64 items ≤ index then lenI64 items - 1 else index).toInt =
      min (items.length - 1 : ℤ) index.toInt := by
  have lenInt := toInt_lenI64 fits
  have lastInt := toInt_lenI64_sub_one fits
  split
  case isTrue past =>
    rw [Int64.le_iff_toInt_le] at past
    omega
  case isFalse inside =>
    rw [Int64.le_iff_toInt_le] at inside
    omega

/-- The number of positions from one to another. -/
theorem toInt_span
    (first last : Int64) {length : ℕ} (fits : length < 2 ^ 63)
    (natural : 0 ≤ first.toInt) (ordered : first.toInt ≤ last.toInt)
    (inside : last.toInt < length) :
    (last - first + 1).toInt = last.toInt - first.toInt + 1 := by
  have difference : (last - first).toInt = last.toInt - first.toInt := by
    rw [Int64.toInt_sub]
    exact Int.bmod_eq_of_le (by omega) (by omega)
  have oneInt : (1 : Int64).toInt = 1 := rfl
  rw [Int64.toInt_add, difference, oneInt]
  exact Int.bmod_eq_of_le (by omega) (by omega)

/-- The cast of a natural number to `usize`. -/
theorem toNat_toUInt64 {index : Int64} (natural : 0 ≤ index.toInt) :
    index.toUInt64.toNat = index.toInt.toNat := by
  have nonneg : 0 ≤ index := Int64.le_iff_toInt_le.mpr natural
  rw [Int64.toNat_toUInt64_of_le nonneg, Int64.toNat_toInt]

/-- The elements at the positions from `first` to `last`. -/
def elementsBetween (items : List α) (first last : ℤ) : List α :=
  (items.take (last + 1).toNat).drop first.toNat

theorem elementsBetween_eq_nil
    {items : List α} {first last : ℤ}
    (nothing : last < first ∨ last < 0 ∨ items.length ≤ first.toNat) :
    elementsBetween items first last = [] := by
  rw [elementsBetween, List.drop_eq_nil_iff, List.length_take]
  omega

/-- Bounds outside the list select what the clamped bounds select. -/
theorem elementsBetween_clamp (items : List α) (first last : ℤ) :
    elementsBetween items (max 0 first) (min (items.length - 1 : ℤ) last) =
      elementsBetween items first last := by
  have sameStart : (max 0 first).toNat = first.toNat := by omega
  have sameStop :
      items.take (min (items.length - 1 : ℤ) last + 1).toNat =
        items.take (last + 1).toNat := by
    rw [List.take_eq_take_iff]
    omega
  rw [elementsBetween, elementsBetween, sameStart, sameStop]

/-! ## Reading a range -/

/-- The first position and the number of elements `list_range` selects. -/
def rangeBounds (len start stop : Int64) : Option (ℕ × ℕ) :=
  if len = 0 then none
  else
    let s := if start < 0 then len + start else start
    let e := if stop < 0 then len + stop else stop
    let s := if s < 0 then 0 else s
    if e < 0 then none
    else if len ≤ s then none
    else
      let e := if len ≤ e then len - 1 else e
      if e < s then none
      else some (s.toUInt64.toNat, (e - s + 1).toUInt64.toNat)

/-- Clone `count` elements out of the two slices; `none` is a panic. -/
def copySlices (list : RingBuffer α) (startIdx count : ℕ) : Option (List α) :=
  if startIdx < list.front.length then
    (checkedSlice list.front startIdx
        (min (startIdx + count) list.front.length)).bind fun out =>
      if out.length < count then
        (checkedSlice list.back 0
            (min (count - out.length) list.back.length)).map fun rest => out ++ rest
      else some out
  else
    let backStart := startIdx - list.front.length
    checkedSlice list.back backStart (min (backStart + count) list.back.length)

/-- The range `list_range` reads from a ring buffer; `none` is a panic. -/
def rangeOf (list : RingBuffer α) (start stop : Int64) : Option (List α) :=
  match rangeBounds (lenI64 list.items) start stop with
  | none => some []
  | some (startIdx, count) => copySlices list startIdx count

/-- Copying stays inside the slices when the range lies inside the list. -/
theorem copySlices_eq
    (list : RingBuffer α) {startIdx count : ℕ}
    (inside : startIdx + count ≤ list.items.length) :
    copySlices list startIdx count = some ((list.items.drop startIdx).take count) := by
  rw [RingBuffer.length_items] at inside
  rw [copySlices, RingBuffer.items]
  by_cases inFront : startIdx < list.front.length
  · rw [if_pos inFront, checkedSlice_eq_some (by omega) (by omega), Option.bind_some,
      List.length_drop, List.length_take]
    by_cases crosses : list.front.length < startIdx + count
    · rw [if_pos (by omega), checkedSlice_eq_some (by omega) (by omega), Option.map_some,
        List.drop_zero, min_eq_right crosses.le, List.take_length,
        List.drop_append_of_le_length inFront.le, List.take_append, List.length_drop,
        List.take_of_length_le (i := count) (by rw [List.length_drop]; omega)]
      congr 3
      omega
    · rw [if_neg (by omega), List.drop_append_of_le_length inFront.le,
        List.take_append_of_le_length (by rw [List.length_drop]; omega),
        List.drop_take]
      congr 2
      omega
  · rw [if_neg inFront]
    dsimp only
    have frontDone : list.front.drop startIdx = [] :=
      List.drop_eq_nil_of_le (not_lt.mp inFront)
    rw [checkedSlice_eq_some (by omega) (by omega), List.drop_append, frontDone,
      List.nil_append, List.drop_take]
    congr 2
    omega

/-- The selected range in integers: the clamped start and stop, if they do not
cross. -/
theorem rangeBounds_eq
    {items : List α} (fits : items.length < 2 ^ 63) (start stop : Int64) :
    rangeBounds (lenI64 items) start stop =
      let s := max 0 (normalIndex items.length start)
      let e := min (items.length - 1 : ℤ) (normalIndex items.length stop)
      if s ≤ e then some (s.toNat, (e - s + 1).toNat) else none := by
  have lenInt := toInt_lenI64 fits
  have startInt := toInt_normalIndex fits start
  have stopInt := toInt_normalIndex fits stop
  have zeroInt : (0 : Int64).toInt = 0 := rfl
  have lenZero : lenI64 items = 0 ↔ items.length = 0 := by
    rw [← Int64.toInt_inj, lenInt, zeroInt]
    omega
  rw [rangeBounds]
  dsimp only
  generalize (if start < 0 then lenI64 items + start else start) = s at startInt ⊢
  generalize (if stop < 0 then lenI64 items + stop else stop) = e at stopInt ⊢
  have clampedStart := toInt_clampStart s
  have clampedStop := toInt_clampStop fits e
  rw [← startInt, ← stopInt, ← clampedStart, ← clampedStop]
  generalize (if s < 0 then 0 else s : Int64) = s' at clampedStart ⊢
  generalize (if lenI64 items ≤ e then lenI64 items - 1 else e) = e' at clampedStop ⊢
  by_cases isEmpty : items.length = 0
  · rw [if_pos (lenZero.mpr isEmpty), if_neg (by omega)]
  rw [if_neg (mt lenZero.mp isEmpty)]
  by_cases beforeList : e < 0
  · rw [if_pos beforeList]
    rw [Int64.lt_iff_toInt_lt] at beforeList
    rw [if_neg (by omega)]
  rw [if_neg beforeList]
  by_cases afterList : lenI64 items ≤ s'
  · rw [if_pos afterList]
    rw [Int64.le_iff_toInt_le] at afterList
    rw [if_neg (by omega)]
  rw [if_neg afterList]
  by_cases crossed : e' < s'
  · rw [if_pos crossed]
    rw [Int64.lt_iff_toInt_lt] at crossed
    rw [if_neg (by omega)]
  rw [if_neg crossed]
  rw [Int64.lt_iff_toInt_lt] at crossed
  have count := toInt_span s' e' fits (by omega) (by omega) (by omega)
  rw [if_pos (by omega), toNat_toUInt64 (by omega), toNat_toUInt64 (by omega), count]

/-- `list_range` reads the elements from the start to the stop, wherever the
ring buffer is split. -/
theorem rangeOf_eq (list : RingBuffer α) (start stop : Int64) :
    rangeOf list start stop =
      some (elementsBetween list.items
        (normalIndex list.items.length start) (normalIndex list.items.length stop)) := by
  rw [rangeOf, rangeBounds_eq list.length_items_lt]
  dsimp only
  generalize normalIndex list.items.length start = s
  generalize normalIndex list.items.length stop = e
  by_cases ordered : max 0 s ≤ min (list.items.length - 1 : ℤ) e
  · rw [if_pos ordered]
    dsimp only
    have sameStart : (max 0 s).toNat = s.toNat := by omega
    rw [copySlices_eq list (by omega), elementsBetween, List.drop_take, sameStart]
    refine congrArg some ((List.take_eq_take_iff).mpr ?_)
    rw [List.length_drop]
    omega
  · rw [if_neg ordered]
    refine congrArg some (Eq.symm ?_)
    rw [elementsBetween, List.drop_eq_nil_iff, List.length_take]
    omega

/-- The range of a stored list, by the bounds `list_range` computes. -/
theorem sliceRange_eq_rangeBounds
    {items : List α} (fits : items.length < 2 ^ 63) (start stop : Int64) :
    sliceRange items start stop =
      match rangeBounds (lenI64 items) start stop with
      | none => []
      | some (startIdx, count) => (items.drop startIdx).take count := by
  rw [sliceRange, rangeBounds]
  dsimp only
  generalize (if start < 0 then lenI64 items + start else start) = s
  generalize (if stop < 0 then lenI64 items + stop else stop) = e
  have clampedStart := toInt_clampStart s
  have clampedStop := toInt_clampStop fits e
  generalize (if s < 0 then 0 else s : Int64) = s' at clampedStart ⊢
  generalize (if lenI64 items ≤ e then lenI64 items - 1 else e) = e' at clampedStop ⊢
  split
  case isTrue => rfl
  split
  case isTrue => rfl
  split
  case isTrue => rfl
  split
  case isTrue => rfl
  case isFalse ordered =>
    rw [Int64.lt_iff_toInt_lt] at ordered
    have count := toInt_span s' e' fits (by omega) (by omega) (by omega)
    rw [toNat_toUInt64 (by omega), toNat_toUInt64 (by omega), Int64.toNat_toInt,
      Int64.toNat_toInt]

/-- The range the stored list gives is the one its slices give. -/
theorem rangeOf_eq_sliceRange (list : RingBuffer α) (start stop : Int64) :
    rangeOf list start stop = some (sliceRange list.items start stop) := by
  rw [rangeOf, sliceRange_eq_rangeBounds list.length_items_lt,
    rangeBounds_eq list.length_items_lt]
  dsimp only
  by_cases ordered :
      max 0 (normalIndex list.items.length start) ≤
        min (list.items.length - 1 : ℤ) (normalIndex list.items.length stop)
  · rw [if_pos ordered]
    exact copySlices_eq list (by omega)
  · rw [if_neg ordered]

/-- A range holds the elements between the positions its bounds stand for. -/
theorem sliceRange_eq
    {α : Type} {items : List α} (fits : items.length < 2 ^ 63) (start stop : Int64) :
    sliceRange items start stop =
      elementsBetween items (normalIndex items.length start)
        (normalIndex items.length stop) := by
  have ofSlices := rangeOf_eq (.ofList items fits) start stop
  rw [rangeOf_eq_sliceRange, RingBuffer.items_ofList] at ofSlices
  exact Option.some.inj ofSlices

/-! ## Trimming -/

/-- What `list_trim` makes of a ring buffer; `none` is a panic.  The bounds are
cast to `usize`, and `e + 1` wraps. -/
def trimSlices (list : RingBuffer Bytes) (start stop : Int64) :
    Option (RingBuffer Bytes) :=
  let s := (Int64.ofInt (trimStart list.items start)).toUInt64
  let e := (Int64.ofInt (trimStop list.items stop)).toUInt64
  if e < s ∨ list.items.length ≤ s.toNat then some .clear
  else (list.truncate (e + 1).toNat).drainFront s.toNat

/-- Trimming panics exactly where the drain runs past the truncated list. -/
theorem trimSlices_eq_none_iff (list : RingBuffer Bytes) (start stop : Int64) :
    trimSlices list start stop = none ↔ trimPanics list.items start stop := by
  rw [trimSlices, trimPanics]
  split
  case isTrue clears => simp
  case isFalse drains =>
    rw [RingBuffer.drainFront_eq_none_iff, RingBuffer.items_truncate, decide_eq_true_iff]

/-- Where it returns, the stored list becomes `trimRange`. -/
theorem items_trimSlices
    {list trimmed : RingBuffer Bytes} {start stop : Int64}
    (returns : trimSlices list start stop = some trimmed) :
    trimmed.items = trimRange list.items start stop := by
  rw [trimSlices] at returns
  rw [trimRange, ← trimStart, ← trimStop]
  split at returns
  case isTrue clears =>
    cases returns
    rw [if_pos clears]
    rfl
  case isFalse drains =>
    rw [if_neg drains]
    have enough := not_lt.mp ((RingBuffer.drainFront_eq_none_iff _ _).not.mp
      (Option.ne_none_iff_exists'.mpr ⟨_, returns⟩))
    have drained := RingBuffer.items_drainFront enough
    rw [returns, Option.map_some, RingBuffer.items_truncate] at drained
    exact Option.some.inj drained

/-- The start of `list_trim` is the normalised one, clamped to the list. -/
theorem trimStart_eq
    {items : List Bytes} (fits : items.length < 2 ^ 63) (start : Int64) :
    trimStart items start =
      min (items.length : ℤ) (max 0 (normalIndex items.length start)) := by
  have lenInt := toInt_lenI64 fits
  rw [trimStart, normalIndex]
  by_cases negative : start < 0
  · have below : start.toInt < 0 := Int64.lt_iff_toInt_lt.mp negative
    rw [if_pos negative, toInt_lenI64_add fits negative, if_neg (by omega)]
    omega
  · have above : ¬start.toInt < 0 := fun below => negative (Int64.lt_iff_toInt_lt.mpr below)
    rw [if_neg negative, if_pos (by omega), lenInt]
    omega

/-- The stop of `list_trim` is the normalised one, clamped to the list and to
the place before it. -/
theorem trimStop_eq
    {items : List Bytes} (fits : items.length < 2 ^ 63) (stop : Int64) :
    trimStop items stop =
      max (-1) (min (items.length - 1 : ℤ) (normalIndex items.length stop)) := by
  have lastInt := toInt_lenI64_sub_one fits
  rw [trimStop, normalIndex]
  by_cases negative : stop < 0
  · have below : stop.toInt < 0 := Int64.lt_iff_toInt_lt.mp negative
    rw [if_pos negative, toInt_lenI64_add fits negative, if_neg (by omega)]
    omega
  · have above : ¬stop.toInt < 0 := fun below => negative (Int64.lt_iff_toInt_lt.mpr below)
    rw [if_neg negative, if_pos (by omega), lastInt]
    omega

/-- The cast to `usize` of a bound inside the list. -/
theorem toNat_castIndex
    {index : ℤ} (natural : 0 ≤ index) (bounded : index < 2 ^ 63) :
    (Int64.ofInt index).toUInt64.toNat = index.toNat := by
  have same : (Int64.ofInt index).toInt = index :=
    Int64.toInt_ofInt_of_le (by omega) bounded
  rw [toNat_toUInt64 (by omega), same]

/-- `list_trim` keeps the elements from the start to the stop, except that it
panics where the stop lies before the list and the start inside it, after its
first element. -/
theorem trimSlices_eq (list : RingBuffer Bytes) (start stop : Int64) :
    (trimSlices list start stop).map RingBuffer.items =
      let s := normalIndex list.items.length start
      let e := normalIndex list.items.length stop
      if 0 < s ∧ s < list.items.length ∧ e < 0 then none
      else some (elementsBetween list.items s e) := by
  have fits := list.length_items_lt
  rw [trimSlices, trimStart_eq fits, trimStop_eq fits]
  dsimp only
  generalize normalIndex list.items.length start = s
  generalize normalIndex list.items.length stop = e
  have startCast :
      (Int64.ofInt (min (list.items.length : ℤ) (max 0 s))).toUInt64.toNat =
        (min (list.items.length : ℤ) (max 0 s)).toNat :=
    toNat_castIndex (by omega) (by omega)
  generalize (Int64.ofInt (min (list.items.length : ℤ) (max 0 s))).toUInt64 = first
    at startCast ⊢
  by_cases stopsBefore : min (list.items.length - 1 : ℤ) e < 0
  · have atMinusOne : max (-1) (min (list.items.length - 1 : ℤ) e) = -1 := by omega
    rw [atMinusOne]
    by_cases outside : list.items.length ≤ first.toNat
    · rw [if_pos (Or.inr outside), if_neg (by omega), elementsBetween_eq_nil (by omega)]
      rfl
    · have notCrossed : ¬((Int64.ofInt (-1)).toUInt64 < first ∨
          list.items.length ≤ first.toNat) := by
        rintro (crossed | past)
        · have largest : (Int64.ofInt (-1)).toUInt64.toNat = 2 ^ 64 - 1 := rfl
          have below := UInt64.lt_iff_toNat_lt.mp crossed
          have bounded := first.toNat_lt
          omega
        · exact outside past
      have wraps : ((Int64.ofInt (-1)).toUInt64 + 1).toNat = 0 := rfl
      rw [if_neg notCrossed, wraps]
      by_cases drains : 0 < first.toNat
      · rw [if_pos (by omega), Option.map_eq_none_iff, RingBuffer.drainFront_eq_none_iff,
          RingBuffer.items_truncate]
        exact drains
      · rw [if_neg (by omega), elementsBetween_eq_nil (by omega),
          RingBuffer.items_drainFront (by omega), RingBuffer.items_truncate, List.take_zero,
          List.drop_nil]
  · have stopCast :
        (Int64.ofInt (max (-1) (min (list.items.length - 1 : ℤ) e))).toUInt64.toNat =
          (min (list.items.length - 1 : ℤ) e).toNat := by
      rw [toNat_castIndex (by omega) (by omega), max_eq_right (by omega)]
    generalize (Int64.ofInt (max (-1) (min (list.items.length - 1 : ℤ) e))).toUInt64 = last
      at stopCast ⊢
    have returns : ¬(0 < s ∧ s < list.items.length ∧ e < 0) := by omega
    rw [if_neg returns]
    by_cases crossed : last < first ∨ list.items.length ≤ first.toNat
    · rw [if_pos crossed]
      rw [UInt64.lt_iff_toNat_lt] at crossed
      rw [elementsBetween_eq_nil (by omega)]
      rfl
    · rw [if_neg crossed]
      rw [UInt64.lt_iff_toNat_lt] at crossed
      have next : (last + 1).toNat = last.toNat + 1 := by
        have oneNat : (1 : UInt64).toNat = 1 := rfl
        rw [UInt64.toNat_add, oneNat]
        omega
      rw [next, RingBuffer.items_drainFront (by
          rw [RingBuffer.items_truncate, List.length_take]
          omega), RingBuffer.items_truncate, elementsBetween]
      have sameStart : first.toNat = s.toNat := by omega
      have sameStop : list.items.take (last.toNat + 1) = list.items.take (e + 1).toNat := by
        rw [List.take_eq_take_iff]
        omega
      rw [sameStart, sameStop]

/-- Trimming panics where the drain runs past the truncated list. -/
theorem trimPanics_iff (list : RingBuffer Bytes) (start stop : Int64) :
    trimPanics list.items start stop ↔
      0 < normalIndex list.items.length start ∧
        normalIndex list.items.length start < list.items.length ∧
          normalIndex list.items.length stop < 0 := by
  rw [← trimSlices_eq_none_iff, ← Option.map_eq_none_iff, trimSlices_eq]
  dsimp only
  split
  case isTrue panics => exact ⟨fun _ => panics, fun _ => rfl⟩
  case isFalse returns =>
    constructor
    · intro absent
      cases absent
    · exact fun panics => absurd panics returns

/-! ## The two commands on a stored list -/

/-- `Shard::list_range` at a key that holds a list; `none` is a panic. -/
def listRangeStored (list : RingBuffer Bytes) (expiresAt : Option UInt64)
    (start stop : Int64) (now : UInt64) :
    Option (Fallible (List Bytes) × Option Entry) :=
  if Entry.expired now ⟨.list list.items, expiresAt⟩ then some (.ok [], none)
  else
    (rangeOf list start stop).map fun shown =>
      (.ok shown, some ⟨.list list.items, expiresAt⟩)

/-- `Shard::list_trim` at a key that holds a list; `none` is a panic. -/
def listTrimStored (list : RingBuffer Bytes) (expiresAt : Option UInt64)
    (start stop : Int64) (now : UInt64) :
    Option (Fallible Unit × Option Entry) :=
  if Entry.expired now ⟨.list list.items, expiresAt⟩ then some (.ok (), none)
  else
    (trimSlices list start stop).map fun trimmed =>
      (.ok (), (unlessEmpty trimmed.items).map fun items => ⟨.list items, expiresAt⟩)

/-- Reading the ring buffer is the method on the stored list. -/
theorem listRangeStored_eq
    (list : RingBuffer Bytes) (expiresAt : Option UInt64) (start stop : Int64)
    (now : UInt64) :
    listRangeStored list expiresAt start stop now =
      some (listRange start stop now (some ⟨.list list.items, expiresAt⟩)) := by
  rw [listRangeStored, rangeOf_eq_sliceRange, listRange, readAs, live, Option.filter_some,
    Entry.live]
  cases Entry.expired now ⟨.list list.items, expiresAt⟩ with
  | true => rfl
  | false => rfl

/-- Trimming the ring buffer is the method on the stored list, where it
returns. -/
theorem listTrimStored_eq
    {list : RingBuffer Bytes} {expiresAt : Option UInt64} {start stop : Int64}
    {now : UInt64} {outcome : Fallible Unit × Option Entry}
    (returns : listTrimStored list expiresAt start stop now = some outcome) :
    outcome = listTrim start stop now (some ⟨.list list.items, expiresAt⟩) := by
  rw [listTrimStored] at returns
  rw [listTrim, updateAs, live, Option.filter_some, Entry.live]
  cases expiry : Entry.expired now ⟨.list list.items, expiresAt⟩ with
  | true =>
      rw [expiry] at returns
      exact (Option.some.inj returns).symm
  | false =>
      rw [expiry, if_neg Bool.false_ne_true, Option.map_eq_some_iff] at returns
      obtain ⟨trimmed, trims, rfl⟩ := returns
      rw [items_trimSlices trims]
      rfl

/-- `LRANGE` shows the range, and `LTRIM` returns and leaves what it showed; a
key whose list would be empty is removed. -/
def TrimKeepsRange (list : RingBuffer Bytes) (expiresAt : Option UInt64)
    (start stop : Int64) (now : UInt64) : Prop :=
  rangeOf list start stop =
      some (elementsBetween list.items
        (max 0 (normalIndex list.items.length start))
        (min (list.items.length - 1 : ℤ) (normalIndex list.items.length stop))) ∧
    ∃ shown kept,
      listRangeStored list expiresAt start stop now = some (.ok shown, kept) ∧
        listTrimStored list expiresAt start stop now =
          some (.ok (), (unlessEmpty shown).map fun items => ⟨.list items, expiresAt⟩)

/-- `LTRIM` keeps what `LRANGE` shows, except where its stop lies before the
list and its start inside the list, after the first element: there it panics. -/
theorem trim_keeps_range_iff
    (list : RingBuffer Bytes) (expiresAt : Option UInt64) (start stop : Int64)
    (now : UInt64) :
    TrimKeepsRange list expiresAt start stop now ↔
      Entry.expired now ⟨.list list.items, expiresAt⟩ ∨
        ¬(0 < normalIndex list.items.length start ∧
          normalIndex list.items.length start < list.items.length ∧
            normalIndex list.items.length stop < 0) := by
  have trimmed := trimSlices_eq list start stop
  rw [TrimKeepsRange, elementsBetween_clamp, listRangeStored, listTrimStored, rangeOf_eq,
    Option.map_some]
  cases Entry.expired now ⟨.list list.items, expiresAt⟩ with
  | true => exact ⟨fun _ => Or.inl rfl, fun _ => ⟨rfl, [], none, rfl, rfl⟩⟩
  | false =>
      rw [if_neg Bool.false_ne_true, if_neg Bool.false_ne_true]
      dsimp only at trimmed
      constructor
      · rintro ⟨-, shown, kept, -, trims⟩
        refine Or.inr fun panics => ?_
        rw [if_pos panics, Option.map_eq_none_iff] at trimmed
        rw [trimmed] at trims
        cases trims
      · rintro (expired | returns)
        · cases expired
        · rw [if_neg returns, Option.map_eq_some_iff] at trimmed
          obtain ⟨left, trims, contents⟩ := trimmed
          refine ⟨rfl, _, _, rfl, ?_⟩
          rw [trims, Option.map_some, contents]

/-- `LTRIM key 1 -3` panics on a list of two. -/
theorem trim_not_always_keeps_range :
    ¬∀ (list : RingBuffer Bytes) (expiresAt : Option UInt64) (start stop : Int64)
      (now : UInt64), TrimKeepsRange list expiresAt start stop now := by
  intro keeps
  obtain ⟨-, shown, kept, -, trims⟩ := keeps ⟨[[97], [98]], [], by decide⟩ none 1 (-3) 0
  have panics :
      (listTrimStored ⟨[[97], [98]], [], by decide⟩ none 1 (-3) 0).isNone := by
    rfl
  rw [trims] at panics
  cases panics

end Shard
end Cache
end MuonJs
