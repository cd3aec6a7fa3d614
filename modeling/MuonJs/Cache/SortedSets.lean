import MuonJs.Cache.Lists
import MuonJs.Lib.Ranking

/-!
# Ranges of a sorted set

`zrange` sorts the members by score, then by their bytes, and returns a slice.
Its comparison takes scores that cannot be compared for equal, so a NaN is
placed by the bytes of its member alone.  The comparison is a strict weak order
on the members, and the slice the members of the ranks asked for, unless a
member with a NaN lies, by its bytes, between two members whose scores are the
other way round (`zrange_exact_iff`).
-/

namespace MuonJs
namespace Cache

namespace F64

/-- One score is below another; NaN is neither below nor above any. -/
def Below (left right : F64) : Prop :=
  left.isNan = false ∧ right.isNan = false ∧ left.key < right.key

instance (left right : F64) : Decidable (left.Below right) :=
  inferInstanceAs (Decidable (_ ∧ _ ∧ _))

theorem not_below_nan {nan : F64} (isNan : nan.isNan = true) (score : F64) :
    ¬score.Below nan := by
  intro below
  rw [below.2.1] at isNan
  cases isNan

theorem not_nan_below {nan : F64} (isNan : nan.isNan = true) (score : F64) :
    ¬nan.Below score := by
  intro below
  rw [below.1] at isNan
  cases isNan

theorem partialCmp_getD_eq_lt_iff (left right : F64) :
    (left.partialCmp right).getD .eq = .lt ↔ left.Below right := by
  unfold partialCmp Below
  cases left.isNan <;> cases right.isNan <;> simp [compare_lt_iff_lt]

theorem partialCmp_getD_swap (left right : F64) :
    (right.partialCmp left).getD .eq = ((left.partialCmp right).getD .eq).swap := by
  unfold partialCmp
  cases left.isNan <;> cases right.isNan <;> simp [Std.OrientedCmp.eq_swap.symm]

end F64

namespace Shard

open Ranking

/-- A member comes before another: by score and then by bytes. -/
def Precedes (left right : Bytes × F64) : Prop :=
  left.2.Below right.2 ∨ ¬right.2.Below left.2 ∧ compare left.1 right.1 = .lt

instance : DecidableRel Precedes := fun _ _ => inferInstanceAs (Decidable (_ ∨ _ ∧ _))

theorem scoreOrder_swap (left right : Bytes × F64) :
    scoreOrder right left = (scoreOrder left right).swap := by
  unfold scoreOrder
  rw [Ordering.swap_then, ← F64.partialCmp_getD_swap]
  congr 1
  exact Std.OrientedCmp.eq_swap

theorem scoreOrder_eq_lt_iff (left right : Bytes × F64) :
    scoreOrder left right = .lt ↔ Precedes left right := by
  unfold scoreOrder Precedes
  rw [Ordering.then_eq_lt, F64.partialCmp_getD_eq_lt_iff,
    ← F64.partialCmp_getD_eq_lt_iff right.2 left.2, F64.partialCmp_getD_swap left.2 right.2,
    ← F64.partialCmp_getD_eq_lt_iff left.2 right.2]
  cases (left.2.partialCmp right.2).getD .eq <;> simp

theorem bytes_eq_of_scoreOrder
    {left right : Bytes × F64} (same : scoreOrder left right = .eq) : left.1 = right.1 :=
  Std.LawfulEqCmp.eq_of_compare (Ordering.then_eq_eq.mp same).2

/-- A member with a NaN lies, by its bytes, between two members whose scores
are the other way round. -/
def Straddled (items : ByteMap F64) : Prop :=
  ∃ (low middle high : Bytes) (lowScore middleScore highScore : F64),
    items[low]? = some lowScore ∧ items[middle]? = some middleScore ∧
      items[high]? = some highScore ∧
    compare low middle = .lt ∧ compare middle high = .lt ∧
    middleScore.isNan = true ∧ highScore.Below lowScore

section

variable {items : ByteMap F64}

theorem mem_toList_iff (member : Bytes) (score : F64) :
    (member, score) ∈ items.toList ↔ items[member]? = some score :=
  Std.ExtTreeMap.mem_toList_iff_getElem?_eq_some

/-- Members with the same bytes are the same. -/
theorem eq_of_bytes_eq
    {left right : Bytes × F64} (isLeft : left ∈ items.toList) (isRight : right ∈ items.toList)
    (same : left.1 = right.1) : left = right := by
  have leftScore := (mem_toList_iff left.1 left.2).mp isLeft
  have rightScore := (mem_toList_iff right.1 right.2).mp isRight
  rw [same, rightScore] at leftScore
  exact Prod.ext same (Option.some.inj leftScore.symm)

/-- Around a NaN the order of the members is that of their bytes. -/
theorem bytes_lt_of_notStraddled
    (fine : ¬Straddled items) {low middle high : Bytes × F64}
    (isLow : low ∈ items.toList) (isMiddle : middle ∈ items.toList)
    (isHigh : high ∈ items.toList)
    (below : compare low.1 middle.1 = .lt) (above : compare middle.1 high.1 = .lt)
    (isNan : middle.2.isNan = true) : ¬high.2.Below low.2 := fun inverted =>
  fine ⟨low.1, middle.1, high.1, low.2, middle.2, high.2, (mem_toList_iff _ _).mp isLow,
    (mem_toList_iff _ _).mp isMiddle, (mem_toList_iff _ _).mp isHigh, below, above, isNan,
    inverted⟩

theorem bytes_trichotomy (left right : Bytes) :
    compare left right = .lt ∨ left = right ∨ compare right left = .lt := by
  cases order : compare left right with
  | lt => exact .inl rfl
  | eq => exact .inr (.inl (Std.LawfulEqCmp.eq_of_compare order))
  | gt =>
      refine .inr (.inr ?_)
      rw [@Std.OrientedCmp.eq_swap _ compare, order]
      rfl

/-- Without such a NaN the order of the members is transitive. -/
theorem Precedes.trans
    (fine : ¬Straddled items) {first second third : Bytes × F64}
    (isFirst : first ∈ items.toList) (isSecond : second ∈ items.toList)
    (isThird : third ∈ items.toList)
    (before : Precedes first second) (after : Precedes second third) :
    Precedes first third := by
  rcases before with below | ⟨notAbove, bytesBelow⟩
  · obtain ⟨firstNumber, secondNumber, lower⟩ := below
    cases thirdNumber : third.2.isNan with
    | false =>
        refine .inl ⟨firstNumber, thirdNumber, ?_⟩
        rcases after with ⟨-, -, higher⟩ | ⟨notAbove, -⟩
        · exact lower.trans higher
        · exact lower.trans_le (not_lt.mp fun above => notAbove ⟨thirdNumber, secondNumber, above⟩)
    | true =>
        -- The last score is a NaN, so bytes decide, and they cannot put it first.
        rcases after with below | ⟨-, bytesAfter⟩
        · exact absurd below (F64.not_below_nan thirdNumber _)
        refine .inr ⟨F64.not_nan_below thirdNumber _, ?_⟩
        rcases bytes_trichotomy first.1 third.1 with bytes | same | inverted
        · exact bytes
        · rw [eq_of_bytes_eq isFirst isThird same, thirdNumber] at firstNumber
          cases firstNumber
        · exact absurd ⟨firstNumber, secondNumber, lower⟩
            (bytes_lt_of_notStraddled fine isSecond isThird isFirst bytesAfter inverted
              thirdNumber)
  · rcases after with ⟨secondNumber, thirdNumber, higher⟩ | ⟨notAfter, bytesAfter⟩
    · cases firstNumber : first.2.isNan with
      | false =>
          have notHigher : first.2.key ≤ second.2.key :=
            not_lt.mp fun above => notAbove ⟨secondNumber, firstNumber, above⟩
          exact .inl ⟨firstNumber, thirdNumber, notHigher.trans_lt higher⟩
      | true =>
          refine .inr ⟨F64.not_below_nan firstNumber _, ?_⟩
          rcases bytes_trichotomy first.1 third.1 with bytes | same | inverted
          · exact bytes
          · rw [← eq_of_bytes_eq isFirst isThird same, firstNumber] at thirdNumber
            cases thirdNumber
          · exact absurd ⟨secondNumber, thirdNumber, higher⟩
              (bytes_lt_of_notStraddled fine isThird isFirst isSecond inverted bytesBelow
                firstNumber)
    · refine .inr ⟨fun inverted => ?_, Std.TransCmp.lt_trans bytesBelow bytesAfter⟩
      cases secondNumber : second.2.isNan with
      | true =>
          exact bytes_lt_of_notStraddled fine isFirst isSecond isThird bytesBelow bytesAfter
            secondNumber inverted
      | false =>
          obtain ⟨thirdNumber, firstNumber, lower⟩ := inverted
          have notHigher : first.2.key ≤ second.2.key :=
            not_lt.mp fun above => notAbove ⟨secondNumber, firstNumber, above⟩
          have stillNotHigher : second.2.key ≤ third.2.key :=
            not_lt.mp fun above => notAfter ⟨thirdNumber, secondNumber, above⟩
          exact absurd lower (not_lt.mpr (notHigher.trans stillNotHigher))

/-- The comparison is a strict weak order on the members exactly when no such
NaN is there. -/
theorem strictWeakOrderOn_iff :
    StrictWeakOrderOn scoreOrder items.toList ↔ ¬Straddled items := by
  constructor
  · rintro weak ⟨low, middle, high, lowScore, middleScore, highScore, isLow, isMiddle, isHigh,
      below, above, isNan, inverted⟩
    rw [← mem_toList_iff] at isLow isMiddle isHigh
    have first := (scoreOrder_eq_lt_iff (low, lowScore) (middle, middleScore)).mpr
      (.inr ⟨F64.not_nan_below isNan _, below⟩)
    have second := (scoreOrder_eq_lt_iff (middle, middleScore) (high, highScore)).mpr
      (.inr ⟨F64.not_below_nan isNan _, above⟩)
    have chain := weak.lt_trans _ isLow _ isMiddle _ isHigh first second
    have back := (scoreOrder_eq_lt_iff (high, highScore) (low, lowScore)).mpr (.inl inverted)
    rw [scoreOrder_swap, chain] at back
    cases back
  · intro fine
    refine ⟨fun left _ right _ => scoreOrder_swap left right, ?_, ?_⟩
    · intro first isFirst second isSecond third isThird before after
      rw [scoreOrder_eq_lt_iff] at before after ⊢
      exact before.trans fine isFirst isSecond isThird after
    · intro first isFirst second isSecond third _ before after
      rw [eq_of_bytes_eq isFirst isSecond (bytes_eq_of_scoreOrder before)]
      exact after

/-! ## The slice -/

/-- The rank of a member: how many members come before it. -/
def rankOf (items : ByteMap F64) (member : Bytes × F64) : ℕ :=
  rank Precedes items.toList member

/-- The reply holds exactly the members with ranks from one position to another,
once each and in order. -/
structure SliceExact
    (items : ByteMap F64) (start stop : Int64) (reply : List Bytes) : Prop where
  nodup : reply.Nodup
  members : ∀ member, member ∈ reply ↔ ∃ score, items[member]? = some score ∧
    max 0 (normalIndex items.size start) ≤ rankOf items (member, score) ∧
    rankOf items (member, score) ≤ min (items.size - 1 : ℤ) (normalIndex items.size stop)
  ordered : reply.Pairwise fun left right => ∀ leftScore rightScore,
    items[left]? = some leftScore → items[right]? = some rightScore →
      Precedes (left, leftScore) (right, rightScore)

/-- The members with their scores, as `zrange` sorts them. -/
def sortedItems (items : ByteMap F64) : List (Bytes × F64) :=
  items.toList.insertionSort fun left right => scoreOrder left right ≠ .gt

theorem sortedItems_perm (items : ByteMap F64) : (sortedItems items).Perm items.toList :=
  List.perm_insertionSort _ _

theorem mem_sortedItems (member : Bytes × F64) :
    member ∈ sortedItems items ↔ items[member.1]? = some member.2 := by
  rw [(sortedItems_perm items).mem_iff, mem_toList_iff member.1 member.2]

theorem sortedItems_bytes_ne (items : ByteMap F64) :
    (sortedItems items).Pairwise fun left right => left.1 ≠ right.1 := by
  refine (sortedItems_perm items).symm.pairwise ?_ fun differ => differ.symm
  refine Std.ExtTreeMap.distinct_keys_toList.imp fun differ same => differ ?_
  rw [same]
  exact Std.ReflCmp.compare_self

/-- Sorted, each member comes before those after it. -/
theorem sortedItems_pairwise (fine : ¬Straddled items) :
    (sortedItems items).Pairwise Precedes := by
  have sorted := (strictWeakOrderOn_iff.mpr fine).pairwise_insertionSort
  refine (sorted.and (sortedItems_bytes_ne items)).imp ?_
  rintro left right ⟨notAfter, differ⟩
  rw [← scoreOrder_eq_lt_iff]
  cases order : scoreOrder left right with
  | lt => rfl
  | eq => exact absurd (bytes_eq_of_scoreOrder order) differ
  | gt => exact absurd order notAfter

theorem Precedes.asymm {left right : Bytes × F64} (before : Precedes left right) :
    ¬Precedes right left := by
  rw [← scoreOrder_eq_lt_iff] at before ⊢
  rw [scoreOrder_swap, before]
  decide

theorem rankOf_lt_size
    (fine : ¬Straddled items) {member : Bytes} {score : F64}
    (isMember : items[member]? = some score) : rankOf items (member, score) < items.size := by
  rw [rankOf, ← rank_perm (sortedItems_perm items), ← Std.ExtTreeMap.length_toList,
    ← (sortedItems_perm items).length_eq]
  exact rank_lt_length (sortedItems_pairwise fine) (fun _ _ _ _ before => before.asymm)
    ((mem_sortedItems (member, score)).mpr isMember)

/-- The slice of the sorted members is the one asked for. -/
theorem sliceExact_of_notStraddled
    (fine : ¬Straddled items) (fits : items.size < 2 ^ 63) (start stop : Int64) :
    SliceExact items start stop (sliceRange (sortedByScore items) start stop) := by
  have isLength : (sortedItems items).length = items.size := by
    rw [(sortedItems_perm items).length_eq, Std.ExtTreeMap.length_toList]
  have isSlice : sliceRange (sortedByScore items) start stop =
      (((sortedItems items).take (normalIndex items.size stop + 1).toNat).drop
        (normalIndex items.size start).toNat).map Prod.fst := by
    have isMap : sortedByScore items = (sortedItems items).map Prod.fst := rfl
    rw [isMap, sliceRange_eq (by rwa [List.length_map, isLength]), elementsBetween,
      List.length_map, isLength, List.map_drop, List.map_take]
  have asymm : ∀ left ∈ sortedItems items, ∀ right ∈ sortedItems items,
      Precedes left right → ¬Precedes right left := fun _ _ _ _ before => before.asymm
  have isSublist := (List.drop_sublist (normalIndex items.size start).toNat _).trans
    (List.take_sublist (normalIndex items.size stop + 1).toNat (sortedItems items))
  have inOrder := (sortedItems_pairwise fine).sublist isSublist
  have differ := (sortedItems_bytes_ne items).sublist isSublist
  have inRange : ∀ position : ℕ, position < items.size →
      ((normalIndex items.size start).toNat ≤ position ∧
          position < (normalIndex items.size stop + 1).toNat ↔
        max 0 (normalIndex items.size start) ≤ position ∧
          (position : ℤ) ≤ min (items.size - 1 : ℤ) (normalIndex items.size stop)) := by
    intro position small
    omega
  have selected_iff : ∀ (member : Bytes) (score : F64),
      (member, score) ∈ ((sortedItems items).take (normalIndex items.size stop + 1).toNat).drop
          (normalIndex items.size start).toNat ↔
        items[member]? = some score ∧
          max 0 (normalIndex items.size start) ≤ rankOf items (member, score) ∧
          rankOf items (member, score) ≤
            min (items.size - 1 : ℤ) (normalIndex items.size stop) := by
    intro member score
    rw [mem_slice_iff (sortedItems_pairwise fine) asymm, rank_perm (sortedItems_perm items),
      mem_sortedItems]
    exact and_congr_right fun isMember => inRange _ (rankOf_lt_size fine isMember)
  rw [isSlice]
  refine ⟨List.pairwise_map.mpr differ, fun member => ?_, ?_⟩
  · rw [List.mem_map]
    constructor
    · rintro ⟨⟨bytes, score⟩, selected, rfl⟩
      exact ⟨score, (selected_iff bytes score).mp selected⟩
    · rintro ⟨score, selected⟩
      exact ⟨(member, score), (selected_iff member score).mpr selected, rfl⟩
  · rw [List.pairwise_map]
    refine inOrder.imp_of_mem ?_
    rintro ⟨left, leftScore⟩ ⟨right, rightScore⟩ isLeft isRight before otherLeft otherRight
      foundLeft foundRight
    have storedLeft := (mem_sortedItems _).mp (isSublist.subset isLeft)
    have storedRight := (mem_sortedItems _).mp (isSublist.subset isRight)
    rw [storedLeft] at foundLeft
    rw [storedRight] at foundRight
    cases foundLeft
    cases foundRight
    exact before

/-! ## The law -/

/-- The comparison keeps the contract of the sort, and at every live entry with
these members every range is the slice asked for. -/
structure ZrangeExact (items : ByteMap F64) : Prop where
  contract : StrictWeakOrderOn scoreOrder items.toList
  slices : ∀ (now : UInt64) (stored : Entry) (start stop : Int64),
    stored.value = .zset items → stored.live now = true →
      ∃ reply, (zrange start stop now (some stored)).1 = .ok reply ∧
        SliceExact items start stop reply

/-- `zrange` is exact unless a member with a NaN lies, by its bytes, between two
members whose scores are the other way round.  The members fit a vector. -/
theorem zrange_exact_iff (items : ByteMap F64) (fits : items.size < 2 ^ 63) :
    ZrangeExact items ↔ ¬Straddled items := by
  refine ⟨fun exact_ => strictWeakOrderOn_iff.mp exact_.contract, fun fine =>
    ⟨strictWeakOrderOn_iff.mpr fine, fun now stored start stop isZSet alive => ?_⟩⟩
  refine ⟨sliceRange (sortedByScore items) start stop, ?_,
    sliceExact_of_notStraddled fine fits start stop⟩
  have isKind : stored.value.asZSet = some items := by
    rw [isZSet]
    rfl
  rw [zrange, readAs_of_live alive isKind]

/-- Without a NaN among the scores nothing is out of order. -/
theorem notStraddled_of_numbers
    (numbers : ∀ (member : Bytes) (score : F64), items[member]? = some score →
      score.isNan = false) :
    ¬Straddled items := by
  rintro ⟨-, middle, -, -, middleScore, -, -, isMiddle, -, -, -, isNan, -⟩
  rw [numbers middle middleScore isMiddle] at isNan
  cases isNan

/-- The entries that `zadd` reaches, with scores that `parse_f64` accepts. -/
inductive ReachedByZadd : Option Entry → Prop
  | absent : ReachedByZadd none
  | zadd {entry : Option Entry} (now : UInt64) (text member : Bytes) (score : F64) :
      ReachedByZadd entry → parseF64 text = some score →
      ReachedByZadd (zadd score member now entry).2

/-- The members after `ZADD k inf a`. -/
def oneMember : ByteMap F64 := (∅ : ByteMap F64).insert (asBytes "a") ⟨0x7ff0000000000000⟩

/-- The members after `ZADD k inf a 0 b -inf c 0 d`. -/
def numberedMembers : ByteMap F64 :=
  ((oneMember.insert (asBytes "b") F64.zero).insert (asBytes "c") ⟨0xfff0000000000000⟩).insert
    (asBytes "d") F64.zero

theorem zrange_exact_numberedMembers : ZrangeExact numberedMembers := by
  refine (zrange_exact_iff numberedMembers (by decide)).mpr (notStraddled_of_numbers ?_)
  intro member score isMember
  simp only [numberedMembers, oneMember, ByteMap.lookup_insert] at isMember
  split_ifs at isMember <;> cases isMember <;> decide

/-- The members after `ZADD k inf a nan b 0 c`. -/
def straddledMembers : ByteMap F64 :=
  (oneMember.insert (asBytes "b") ⟨0x7ff8000000000000⟩).insert (asBytes "c") F64.zero

theorem reachedByZadd_straddledMembers :
    ReachedByZadd (some ⟨.zset straddledMembers, none⟩) := by
  have first := ReachedByZadd.zadd 0 (asBytes "inf") (asBytes "a") ⟨0x7ff0000000000000⟩
    .absent (by decide)
  have second := ReachedByZadd.zadd 0 (asBytes "nan") (asBytes "b") ⟨0x7ff8000000000000⟩
    first (by decide)
  exact ReachedByZadd.zadd 0 (asBytes "0") (asBytes "c") F64.zero second (by decide)

/-- `ZADD k inf a nan b 0 c` leaves a set that has no order. -/
theorem zrange_not_always_exact :
    ¬∀ (items : ByteMap F64) (expiresAt : Option UInt64),
      ReachedByZadd (some ⟨.zset items, expiresAt⟩) → ZrangeExact items := by
  intro exact_
  have contract := (exact_ straddledMembers none reachedByZadd_straddledMembers).contract
  refine strictWeakOrderOn_iff.mp contract ⟨asBytes "a", asBytes "b", asBytes "c",
    ⟨0x7ff0000000000000⟩, ⟨0x7ff8000000000000⟩, F64.zero, ?_⟩
  decide

end

end Shard
end Cache
end MuonJs
