import MuonJs.Cache.Lists

/-!
# Removing occurrences from a list

`list_rem` removes all occurrences of a value, or some from one end, with a
loop of its own for each of the three.  The loops are modelled with their
positions and counters and compared with the occurrences the count asks for.
-/

namespace MuonJs
namespace Cache
namespace Shard

/-! ## The three loops -/

/-- `list.retain`: drop every occurrence and count it. -/
def retainOthers (value : Bytes) : List Bytes → Int64 → List Bytes × Int64
  | [], removed => ([], removed)
  | item :: rest, removed =>
      if item = value then retainOthers value rest (removed + 1)
      else
        let (kept, removed) := retainOthers value rest removed
        (item :: kept, removed)

/-- The loop of a positive count: from position `i` to the end of the list. -/
def removeForward (count : Int64) (value : Bytes)
    (list : List Bytes) (i : ℕ) (removed : Int64) : List Bytes × Int64 :=
  if inside : i < list.length ∧ removed < count then
    if list[i]? = some value then
      removeForward count value (list.eraseIdx i) i (removed + 1)
    else removeForward count value list (i + 1) removed
  else (list, removed)
termination_by list.length - i
decreasing_by
  · rw [List.length_eraseIdx_of_lt inside.1]
    omega
  · omega

/-- The loop of a negative count: from below position `i` to the start. -/
def removeBackward (count : Int64) (value : Bytes) :
    List Bytes → ℕ → Int64 → List Bytes × Int64
  | list, 0, removed => (list, removed)
  | list, i + 1, removed =>
      if removed < -count then
        if list[i]? = some value then
          removeBackward count value (list.eraseIdx i) i (removed + 1)
        else removeBackward count value list i removed
      else (list, removed)

/-- The loop `list_rem` runs. -/
def remLoops (count : Int64) (value : Bytes) (items : List Bytes) :
    List Bytes × Int64 :=
  if count = 0 then retainOthers value items 0
  else if 0 < count then removeForward count value items 0 0
  else removeBackward count value items items.length 0

/-! ## The loops remove from one end -/

theorem removeFront_zero (value : Bytes) (items : List Bytes) :
    removeFront value 0 items = (0, items) := by
  cases items <;> rfl

theorem removeFront_of_eq (count : ℕ) (value : Bytes) (rest : List Bytes) :
    removeFront value (count + 1) (value :: rest) =
      ((removeFront value count rest).1 + 1, (removeFront value count rest).2) := by
  rw [removeFront, if_pos rfl]

theorem removeFront_of_ne
    (count : ℕ) {value item : Bytes} (other : item ≠ value) (rest : List Bytes) :
    removeFront value count (item :: rest) =
      ((removeFront value count rest).1, item :: (removeFront value count rest).2) := by
  cases count with
  | zero => rw [removeFront_zero, removeFront_zero]
  | succ count => rw [removeFront, if_neg other]

theorem toInt_add_one (n : Int64) (room : n.toInt + 1 < 2 ^ 63) :
    (n + 1).toInt = n.toInt + 1 := by
  have above := n.le_toInt
  have oneInt : (1 : Int64).toInt = 1 := rfl
  rw [Int64.toInt_add, oneInt]
  exact Int.bmod_eq_of_le (by omega) (by omega)

theorem add_one_add_ofNat (removed : Int64) (n : ℕ) :
    removed + 1 + Int64.ofNat n = removed + Int64.ofNat (n + 1) := by
  rw [Int64.ofNat_add, Int64.add_assoc, Int64.add_comm 1]
  rfl

/-- Dropping every occurrence is removing as many as there could be. -/
theorem retainOthers_eq
    (value : Bytes) (items : List Bytes) (removed : Int64)
    {count : ℕ} (enough : items.length ≤ count) :
    retainOthers value items removed =
      ((removeFront value count items).2,
        removed + Int64.ofNat (removeFront value count items).1) := by
  induction items generalizing removed count with
  | nil =>
      rw [retainOthers, removeFront]
      exact congrArg (Prod.mk _) (Int64.add_zero removed).symm
  | cons item rest ih =>
      rw [List.length_cons] at enough
      rw [retainOthers]
      by_cases same : item = value
      · subst same
        obtain ⟨count, rfl⟩ := Nat.exists_eq_add_of_lt enough
        rw [if_pos rfl, removeFront_of_eq,
          ih (removed + 1) (Nat.le_add_right rest.length count), add_one_add_ofNat]
      · rw [if_neg same, removeFront_of_ne count same,
          ih removed (Nat.le_of_succ_le enough)]

/-- The forward loop removes from the front of what it has not passed yet. -/
theorem removeForward_eq
    (count : Int64) (value : Bytes) (passed rest : List Bytes) (removed : Int64)
    (bounded : removed.toInt + rest.length < 2 ^ 63) :
    removeForward count value (passed ++ rest) passed.length removed =
      (passed ++ (removeFront value (count.toInt - removed.toInt).toNat rest).2,
        removed + Int64.ofNat
          (removeFront value (count.toInt - removed.toInt).toNat rest).1) := by
  induction rest generalizing passed removed with
  | nil =>
      rw [removeForward, dif_neg (by rw [List.append_nil]; omega), removeFront]
      exact congrArg (Prod.mk _) (Int64.add_zero removed).symm
  | cons item rest ih =>
      rw [List.length_cons] at bounded
      have atItem : (passed ++ item :: rest)[passed.length]? = some item := by
        rw [List.getElem?_append_right le_rfl, Nat.sub_self]
        rfl
      have isInside : passed.length < (passed ++ item :: rest).length := by
        rw [List.length_append, List.length_cons]
        omega
      rw [removeForward, atItem]
      by_cases wanted : removed < count
      · have left := Int64.lt_iff_toInt_lt.mp wanted
        rw [dif_pos ⟨isInside, wanted⟩]
        by_cases same : item = value
        · subst same
          have next := toInt_add_one removed (by omega)
          have spent : (count.toInt - removed.toInt).toNat =
              (count.toInt - (removed + 1).toInt).toNat + 1 := by omega
          rw [if_pos rfl, spent, removeFront_of_eq, ← add_one_add_ofNat]
          have erased : (passed ++ item :: rest).eraseIdx passed.length = passed ++ rest := by
            rw [List.eraseIdx_append_of_length_le le_rfl, Nat.sub_self]
            rfl
          rw [erased]
          exact ih passed (removed + 1) (by omega)
        · rw [if_neg (fun found => same (Option.some.inj found)), removeFront_of_ne _ same]
          have shifted := ih (passed ++ [item]) removed (by omega)
          rw [List.append_assoc, List.append_assoc, List.length_append] at shifted
          exact shifted
      · have spent : (count.toInt - removed.toInt).toNat = 0 := by
          rw [Int64.lt_iff_toInt_lt] at wanted
          omega
        rw [dif_neg (fun both => wanted both.2), spent, removeFront_zero]
        exact congrArg (Prod.mk _) (Int64.add_zero removed).symm

/-- The backward loop removes from the end of what it has not passed yet. -/
theorem removeBackward_eq
    (count : Int64) (value : Bytes) (rest passed : List Bytes) (removed : Int64)
    (bounded : removed.toInt + rest.length < 2 ^ 63) :
    removeBackward count value (rest.reverse ++ passed) rest.length removed =
      ((removeFront value ((-count).toInt - removed.toInt).toNat rest).2.reverse ++ passed,
        removed + Int64.ofNat
          (removeFront value ((-count).toInt - removed.toInt).toNat rest).1) := by
  induction rest generalizing passed removed with
  | nil =>
      rw [List.length_nil, removeBackward, removeFront]
      exact congrArg (Prod.mk _) (Int64.add_zero removed).symm
  | cons item rest ih =>
      rw [List.length_cons] at bounded
      have atItem : ((item :: rest).reverse ++ passed)[rest.length]? = some item := by
        rw [List.reverse_cons, List.append_assoc,
          List.getElem?_append_right (by rw [List.length_reverse]), List.length_reverse,
          Nat.sub_self]
        rfl
      rw [List.length_cons, removeBackward, atItem]
      by_cases wanted : removed < -count
      · have left := Int64.lt_iff_toInt_lt.mp wanted
        rw [if_pos wanted]
        by_cases same : item = value
        · subst same
          have next := toInt_add_one removed (by omega)
          have spent : ((-count).toInt - removed.toInt).toNat =
              ((-count).toInt - (removed + 1).toInt).toNat + 1 := by omega
          rw [if_pos rfl, spent, removeFront_of_eq, ← add_one_add_ofNat]
          have erased : ((item :: rest).reverse ++ passed).eraseIdx rest.length =
              rest.reverse ++ passed := by
            rw [List.reverse_cons, List.append_assoc,
              List.eraseIdx_append_of_length_le (by rw [List.length_reverse]),
              List.length_reverse, Nat.sub_self]
            rfl
          rw [erased]
          exact ih passed (removed + 1) (by omega)
        · rw [if_neg (fun found => same (Option.some.inj found)), removeFront_of_ne _ same]
          have shifted := ih (item :: passed) removed (by omega)
          rw [List.reverse_cons, List.append_assoc, List.reverse_cons, List.append_assoc]
          exact shifted
      · have spent : ((-count).toInt - removed.toInt).toNat = 0 := by
          rw [Int64.lt_iff_toInt_lt] at wanted
          omega
        rw [if_neg wanted, spent, removeFront_zero]
        exact congrArg (Prod.mk _) (Int64.add_zero removed).symm

/-- The loops remove what `removeMatches` says. -/
theorem remLoops_eq
    (count : Int64) (value : Bytes) {items : List Bytes} (fits : items.length < 2 ^ 63) :
    remLoops count value items =
      ((removeMatches count value items).2,
        Int64.ofNat (removeMatches count value items).1) := by
  have zeroInt : (0 : Int64).toInt = 0 := rfl
  rw [remLoops, removeMatches]
  split
  case isTrue all => rw [retainOthers_eq value items 0 le_rfl, Int64.zero_add]
  split
  case isTrue forward =>
    have looped := removeForward_eq count value [] items 0 (by omega)
    rw [zeroInt, sub_zero, Int64.toNat_toInt, Int64.zero_add] at looped
    exact looped
  case isFalse backward =>
    have looped := removeBackward_eq count value items.reverse [] 0
      (by rw [List.length_reverse]; omega)
    rw [zeroInt, sub_zero, Int64.toNat_toInt, Int64.zero_add, List.reverse_reverse,
      List.append_nil, List.append_nil, List.length_reverse] at looped
    exact looped

/-! ## The occurrences a count asks for -/

/-- Keep the elements whose positions satisfy a test. -/
def keptAt (keep : ℕ → Bool) : List α → List α
  | [] => []
  | item :: rest =>
      if keep 0 then item :: keptAt (fun position => keep (position + 1)) rest
      else keptAt (fun position => keep (position + 1)) rest

theorem keptAt_congr
    {keep keep' : ℕ → Bool} {items : List α}
    (agree : ∀ position < items.length, keep position = keep' position) :
    keptAt keep items = keptAt keep' items := by
  induction items generalizing keep keep' with
  | nil => rfl
  | cons item rest ih =>
      rw [List.length_cons] at agree
      have others : keptAt (fun position => keep (position + 1)) rest =
          keptAt (fun position => keep' (position + 1)) rest :=
        ih fun position inside => agree (position + 1) (Nat.succ_lt_succ inside)
      rw [keptAt, keptAt, agree 0 (Nat.succ_pos _), others]

theorem keptAt_singleton (keep : ℕ → Bool) (item : α) :
    keptAt keep [item] = if keep 0 then [item] else [] := rfl

theorem keptAt_append (keep : ℕ → Bool) (items more : List α) :
    keptAt keep (items ++ more) =
      keptAt keep items ++ keptAt (fun position => keep (items.length + position)) more := by
  induction items generalizing keep with
  | nil =>
      refine keptAt_congr fun position _ => ?_
      rw [List.length_nil, Nat.zero_add]
  | cons item rest ih =>
      have shifted : keptAt (fun position => keep (rest.length + position + 1)) more =
          keptAt (fun position => keep ((item :: rest).length + position)) more := by
        refine keptAt_congr fun position _ => congrArg keep ?_
        rw [List.length_cons]
        omega
      rw [List.cons_append, keptAt, keptAt, ih, shifted]
      split
      · rfl
      · rfl

/-- Read from the end, the kept positions are counted from the end. -/
theorem keptAt_reverse (keep : ℕ → Bool) (items : List α) :
    keptAt keep items.reverse =
      (keptAt (fun position => keep (items.length - 1 - position)) items).reverse := by
  induction items with
  | nil => rfl
  | cons item rest ih =>
      have shifted : keptAt (fun position => keep (rest.length - 1 - position)) rest =
          keptAt (fun position => keep ((item :: rest).length - 1 - (position + 1))) rest := by
        refine keptAt_congr fun position _ => congrArg keep ?_
        rw [List.length_cons]
        omega
      rw [List.reverse_cons, keptAt_append, ih, shifted, keptAt_singleton, keptAt,
        List.length_reverse, List.length_cons, Nat.add_sub_cancel, Nat.sub_zero, Nat.add_zero]
      split
      · rw [List.reverse_cons]
      · rw [List.append_nil]

theorem keptAt_all
    {keep : ℕ → Bool} {items : List α}
    (all : ∀ position < items.length, keep position = true) :
    keptAt keep items = items := by
  induction items generalizing keep with
  | nil => rfl
  | cons item rest ih =>
      rw [List.length_cons] at all
      rw [keptAt, if_pos (all 0 (Nat.succ_pos _)),
        ih fun position inside => all (position + 1) (Nat.succ_lt_succ inside)]

/-- One of the first `count` occurrences lies at the position: fewer lie before
it. -/
def isEarly (count : ℕ) (value : Bytes) (items : List Bytes) (position : ℕ) : Bool :=
  items[position]? = some value ∧ (items.take position).count value < count

/-- One of the last `count` occurrences lies at the position: fewer lie after
it. -/
def isLate (count : ℕ) (value : Bytes) (items : List Bytes) (position : ℕ) : Bool :=
  items[position]? = some value ∧ (items.drop (position + 1)).count value < count

/-- Past an occurrence, one fewer is asked for. -/
theorem isEarly_cons_eq (count : ℕ) (value : Bytes) (rest : List Bytes) (position : ℕ) :
    isEarly (count + 1) value (value :: rest) (position + 1) =
      isEarly count value rest position := by
  rw [isEarly, isEarly, List.getElem?_cons_succ, List.take_succ_cons, List.count_cons_self]
  simp only [Nat.add_lt_add_iff_right]

/-- Past another element, as many are asked for. -/
theorem isEarly_cons_ne
    (count : ℕ) {value item : Bytes} (other : item ≠ value) (rest : List Bytes)
    (position : ℕ) :
    isEarly count value (item :: rest) (position + 1) =
      isEarly count value rest position := by
  rw [isEarly, isEarly, List.getElem?_cons_succ, List.take_succ_cons,
    List.count_cons_of_ne other]

/-- Removing from the front removes the first occurrences. -/
theorem removeFront_spec (count : ℕ) (value : Bytes) (items : List Bytes) :
    removeFront value count items =
      (min count (items.count value),
        keptAt (fun position => !isEarly count value items position) items) := by
  induction items generalizing count with
  | nil =>
      rw [removeFront, List.count_nil, Nat.min_zero]
      rfl
  | cons item rest ih =>
      by_cases same : item = value
      · subst same
        cases count with
        | zero =>
            have none_early : ∀ position < (item :: rest).length,
                (!isEarly 0 item (item :: rest) position) = true := by
              intro position _
              rw [isEarly, decide_eq_false (fun early => Nat.not_lt_zero _ early.2)]
              rfl
            rw [removeFront_zero, Nat.zero_min, keptAt_all none_early]
        | succ count =>
            have first : isEarly (count + 1) item (item :: rest) 0 = true := by
              rw [isEarly, decide_eq_true_iff]
              exact ⟨rfl, Nat.succ_pos count⟩
            rw [removeFront_of_eq, ih, List.count_cons_self, keptAt, first,
              if_neg (by decide), Nat.add_min_add_right]
            simp only [isEarly_cons_eq]
      · have notFirst : isEarly count value (item :: rest) 0 = false := by
          rw [isEarly, decide_eq_false_iff_not]
          exact fun early => same (Option.some.inj early.1)
        rw [removeFront_of_ne count same, ih, List.count_cons_of_ne same, keptAt, notFirst,
          if_pos Bool.not_false]
        simp only [isEarly_cons_ne count same]

/-- Seen from the end, the first occurrences are the last ones. -/
theorem isEarly_reverse
    (count : ℕ) (value : Bytes) {items : List Bytes} {position : ℕ}
    (inside : position < items.length) :
    isEarly count value items.reverse (items.length - 1 - position) =
      isLate count value items position := by
  have mirrored : items.length - 1 - (items.length - 1 - position) = position := by omega
  have after : items.length - (items.length - 1 - position) = position + 1 := by omega
  rw [isEarly, isLate, List.getElem?_reverse (by omega), mirrored, List.take_reverse, after,
    List.count_reverse]

/-- Removing from the end removes the last occurrences. -/
theorem removeFront_reverse_spec (count : ℕ) (value : Bytes) (items : List Bytes) :
    removeFront value count items.reverse =
      (min count (items.count value),
        (keptAt (fun position => !isLate count value items position) items).reverse) := by
  have mirrored :
      keptAt (fun position =>
          !isEarly count value items.reverse (items.length - 1 - position)) items =
        keptAt (fun position => !isLate count value items position) items :=
    keptAt_congr fun position inside => congrArg _ (isEarly_reverse count value inside)
  rw [removeFront_spec, List.count_reverse, keptAt_reverse, mirrored]

/-! ## What the command does -/

/-- The number of occurrences a count asks for. -/
def requestedNumber (count : Int64) (value : Bytes) (items : List Bytes) : ℕ :=
  if count = 0 then items.count value
  else min count.toInt.natAbs (items.count value)

/-- The position holds an occurrence the count asks for: any for zero, the
first ones for a positive count, the last ones for a negative one. -/
def isRequested (count : Int64) (value : Bytes) (items : List Bytes) (position : ℕ) : Bool :=
  if count = 0 then items[position]? = some value
  else if 0 < count then isEarly count.toInt.natAbs value items position
  else isLate count.toInt.natAbs value items position

/-- The elements that stay. -/
def unrequested (count : Int64) (value : Bytes) (items : List Bytes) : List Bytes :=
  keptAt (fun position => !isRequested count value items position) items

theorem removeFront_all (value : Bytes) (items : List Bytes) :
    removeFront value items.length items =
      (items.count value, unrequested 0 value items) := by
  have sameTest : ∀ position < items.length,
      (!isEarly items.length value items position) = !isRequested 0 value items position := by
    intro position inside
    rw [isEarly, isRequested, if_pos rfl]
    have fewer : (items.take position).count value < items.length := by
      have bounded : (items.take position).count value ≤ (items.take position).length :=
        List.count_le_length
      rw [List.length_take] at bounded
      omega
    simp only [fewer, and_true]
  rw [removeFront_spec, min_eq_right List.count_le_length, unrequested,
    keptAt_congr sameTest]

/-- The size of a negated count. -/
theorem toNatClampNeg_neg
    {count : Int64} (negative : count < 0) (ordinary : count ≠ Int64.minValue) :
    (-count).toNatClampNeg = count.toInt.natAbs := by
  have below : count.toInt < 0 := Int64.lt_iff_toInt_lt.mp negative
  have above : -2 ^ 63 ≤ count.toInt := count.le_toInt
  have notLeast : count.toInt ≠ -2 ^ 63 := fun least => ordinary (Int64.toInt_inj.mp least)
  rw [← Int64.toNat_toInt, Int64.toInt_neg, Int.bmod_eq_of_le (by omega) (by omega)]
  omega

/-- Every count but the least `i64` removes what it asks for. -/
theorem removeMatches_spec
    {count : Int64} (ordinary : count ≠ Int64.minValue) (value : Bytes) (items : List Bytes) :
    removeMatches count value items =
      (requestedNumber count value items, unrequested count value items) := by
  rw [removeMatches, requestedNumber]
  by_cases all : count = 0
  · subst all
    rw [if_pos rfl, if_pos rfl, removeFront_all]
  rw [if_neg all, if_neg all]
  by_cases forward : 0 < count
  · have positive : 0 < count.toInt := Int64.lt_iff_toInt_lt.mp forward
    have size : count.toNatClampNeg = count.toInt.natAbs := by
      rw [← Int64.toNat_toInt]
      omega
    rw [if_pos forward, size, removeFront_spec, unrequested]
    simp only [isRequested, if_neg all, if_pos forward]
  · have negative : count < 0 := by
      rw [Int64.lt_iff_toInt_lt] at forward ⊢
      have nonzero : count.toInt ≠ (0 : Int64).toInt := fun zero => all (Int64.toInt_inj.mp zero)
      omega
    rw [if_neg forward, toNatClampNeg_neg negative ordinary, removeFront_reverse_spec,
      unrequested]
    simp only [isRequested, if_neg all, if_neg forward, List.reverse_reverse]

/-- The negation of the least `i64` is itself, so nothing is removed. -/
theorem removeMatches_minValue (value : Bytes) (items : List Bytes) :
    removeMatches Int64.minValue value items = (0, items) := by
  have size : (-Int64.minValue).toNatClampNeg = 0 := by decide
  rw [removeMatches, if_neg (by decide), if_neg (by decide), size, removeFront_zero]
  exact congrArg (Prod.mk 0) items.reverse_reverse

/-- Where the value does not occur, nothing is asked for. -/
theorem unrequested_of_absent
    (count : Int64) {value : Bytes} {items : List Bytes} (absent : value ∉ items) :
    unrequested count value items = items := by
  refine keptAt_all fun position _ => ?_
  have elsewhere : items[position]? ≠ some value :=
    fun found => absent (List.mem_of_getElem? found)
  rw [isRequested, isEarly, isLate]
  simp [elsewhere]

/-- What is removed and what is kept make up the list. -/
theorem removeFront_length (count : ℕ) (value : Bytes) (items : List Bytes) :
    (removeFront value count items).1 + (removeFront value count items).2.length =
      items.length := by
  induction items generalizing count with
  | nil =>
      rw [removeFront]
      rfl
  | cons item rest ih =>
      by_cases same : item = value
      · subst same
        cases count with
        | zero =>
            rw [removeFront_zero]
            exact Nat.zero_add _
        | succ count =>
            have kept := ih count
            rw [removeFront_of_eq, List.length_cons]
            dsimp only
            omega
      · have kept := ih count
        rw [removeFront_of_ne count same, List.length_cons]
        dsimp only
        rw [List.length_cons]
        omega

theorem removeMatches_length (count : Int64) (value : Bytes) (items : List Bytes) :
    (removeMatches count value items).1 + (removeMatches count value items).2.length =
      items.length := by
  rw [removeMatches]
  split
  case isTrue => exact removeFront_length _ _ _
  split
  case isTrue => exact removeFront_length _ _ _
  case isFalse =>
    have kept := removeFront_length (-count).toNatClampNeg value items.reverse
    dsimp only
    rw [List.length_reverse] at kept ⊢
    exact kept

/-- `Shard::list_rem`, with its loops. -/
def listRemLoops (count : Int64) (value : Bytes) : UInt64 → EntryFn (Fallible Int64) :=
  updateAs Value.asList .list
    (fun items =>
      (.ok (remLoops count value items).2, unlessEmpty (remLoops count value items).1))
    (.ok 0, none)

theorem asList_list (items : List Bytes) : (Value.list items).asList = some items := rfl

/-- On a list that fits the machine, the loops make the method. -/
theorem listRemLoops_eq
    (count : Int64) (value : Bytes) (list : RingBuffer Bytes) (expiresAt : Option UInt64)
    (now : UInt64) :
    listRemLoops count value now (some ⟨.list list.items, expiresAt⟩) =
      listRem count value now (some ⟨.list list.items, expiresAt⟩) := by
  cases alive : Entry.live now ⟨.list list.items, expiresAt⟩ with
  | false =>
      have absent := Option.filter_some_neg alive
      rw [listRemLoops, listRem, updateAs_of_absent absent, updateAs_of_absent absent]
  | true =>
      rw [listRemLoops, listRem, updateAs_of_live alive (asList_list list.items),
        updateAs_of_live alive (asList_list list.items),
        remLoops_eq count value list.length_items_lt]

/-- `LREM` removes the occurrences its count asks for, keeps the others in
their order, replies with the number it removed, and removes the key exactly
when nothing is left. -/
def RemovesRequested (count : Int64) (value : Bytes) (list : RingBuffer Bytes)
    (expiresAt : Option UInt64) (now : UInt64) : Prop :=
  ∃ (reply : Int64) (kept : List Bytes),
    listRemLoops count value now (some ⟨.list list.items, expiresAt⟩) =
        (.ok reply, (unlessEmpty kept).map fun items => ⟨.list items, expiresAt⟩) ∧
      kept = unrequested count value list.items ∧
      reply.toInt = requestedNumber count value list.items ∧
      reply.toInt + kept.length = list.items.length

/-- What `LREM` does to a live list, by what is removed from it. -/
theorem listRemLoops_of_live
    {list : RingBuffer Bytes} {expiresAt : Option UInt64} {now : UInt64}
    (alive : Entry.live now ⟨.list list.items, expiresAt⟩ = true)
    (count : Int64) (value : Bytes) :
    listRemLoops count value now (some ⟨.list list.items, expiresAt⟩) =
      (.ok (Int64.ofNat (removeMatches count value list.items).1),
        (unlessEmpty (removeMatches count value list.items).2).map fun items =>
          ⟨.list items, expiresAt⟩) := by
  rw [listRemLoops, updateAs_of_live alive (asList_list list.items),
    remLoops_eq count value list.length_items_lt]
  rfl

/-- The number removed fits the reply. -/
theorem toInt_removed (count : Int64) (value : Bytes) (list : RingBuffer Bytes) :
    (Int64.ofNat (removeMatches count value list.items).1).toInt =
      (removeMatches count value list.items).1 := by
  have total := removeMatches_length count value list.items
  have fits := list.length_items_lt
  exact Int64.toInt_ofNat_of_lt (by omega)

/-- `LREM` removes what its count asks for, unless the count is the least `i64`
and the value occurs: its negation overflows, and nothing is removed. -/
theorem removes_requested_iff
    {list : RingBuffer Bytes} {expiresAt : Option UInt64} {now : UInt64}
    (alive : Entry.live now ⟨.list list.items, expiresAt⟩ = true)
    (count : Int64) (value : Bytes) :
    RemovesRequested count value list expiresAt now ↔
      count ≠ Int64.minValue ∨ value ∉ list.items := by
  have total := removeMatches_length count value list.items
  have reply := toInt_removed count value list
  rw [RemovesRequested, listRemLoops_of_live alive]
  by_cases ordinary : count = Int64.minValue
  · subst ordinary
    rw [removeMatches_minValue] at total reply ⊢
    constructor
    · rintro ⟨number, kept, replied, -, asked, -⟩
      refine Or.inr fun occurs => ?_
      have some_occur : 0 < list.items.count value := List.count_pos_iff.mpr occurs
      have sameNumber : number = Int64.ofNat 0 :=
        (Except.ok.inj (congrArg Prod.fst replied)).symm
      rw [sameNumber, reply, requestedNumber, if_neg (by decide)] at asked
      have size : Int64.minValue.toInt.natAbs = 2 ^ 63 := rfl
      omega
    · rintro (extraordinary | absent)
      · exact absurd rfl extraordinary
      · refine ⟨_, _, rfl, (unrequested_of_absent _ absent).symm, ?_, ?_⟩
        · rw [reply, requestedNumber, if_neg (by decide), List.count_eq_zero.mpr absent,
            Nat.min_zero]
        · omega
  · refine ⟨fun _ => Or.inl ordinary, fun _ => ⟨_, _, rfl, ?_, ?_, ?_⟩⟩
    · rw [removeMatches_spec ordinary]
    · rw [reply, removeMatches_spec ordinary]
    · omega

/-- Removing the last occurrence from a list of three. -/
theorem removes_requested_iff_last :
    Entry.live 0 ⟨.list [[97], [98], [97]], none⟩ = true ∧
      (RemovesRequested (-1) [97] (.ofList [[97], [98], [97]] (by decide)) none 0 ↔
        (-1 : Int64) ≠ Int64.minValue ∨ [97] ∉ [[97], [98], ([97] : Bytes)]) :=
  ⟨rfl, @removes_requested_iff (.ofList [[97], [98], [97]] (by decide)) none 0 rfl (-1) [97]⟩

/-- `LREM key -9223372036854775808 a` removes nothing from the list `a`. -/
theorem not_always_removes_requested :
    ¬∀ (count : Int64) (value : Bytes) (list : RingBuffer Bytes) (expiresAt : Option UInt64)
      (now : UInt64), Entry.live now ⟨.list list.items, expiresAt⟩ = true →
        RemovesRequested count value list expiresAt now := by
  intro removes
  obtain ⟨number, kept, replied, -, asked, -⟩ :=
    removes Int64.minValue [97] (.ofList [[97]] (by decide)) none 0 rfl
  rw [listRemLoops_of_live rfl, removeMatches_minValue] at replied
  have sameNumber : number = Int64.ofNat 0 :=
    (Except.ok.inj (congrArg Prod.fst replied)).symm
  rw [sameNumber] at asked
  exact absurd asked (by decide)

end Shard
end Cache
end MuonJs
