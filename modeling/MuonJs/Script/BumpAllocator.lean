import MuonJs.Lib.Blocks
import MuonJs.Script.TaggedWords

/-!
# The allocator behind tagged words

`Context::new` is given a slice of bytes at any address, from which blocks are taken one
behind the other.  An offset in the slice is rounded up to a multiple of eight, not an
address; so the blocks are multiples of eight, as the words for pointers need them, exactly
when the slice starts at one.
-/

namespace MuonJs
namespace Script
namespace Tagged

open Blocks (Block Stacked)
open Value

/-- A slice of bytes: it is no longer than `isize::MAX` and does not reach around the end of
the address space. -/
structure Slice where
  start : UInt64
  length : UInt64
  length_lt : length.toNat < 2 ^ 63
  inSpace : start.toNat + length.toNat < 2 ^ 64

/-- The length of a slice whose bytes are copied. -/
abbrev SliceLength := {length : UInt64 // length.toNat < 2 ^ 63}

/-! ## The code -/

/-- `align_up`. -/
def alignUp (value align : UInt64) : UInt64 :=
  if align = 0 then value else (value + align - 1) &&& ~~~(align - 1)

/-- `usize::checked_add`. -/
def checkedAdd (left right : UInt64) : Option UInt64 :=
  if left.toNat + right.toNat < 2 ^ 64 then some (left + right) else none

/-- `usize::checked_mul`. -/
def checkedMul (left right : UInt64) : Option UInt64 :=
  if left.toNat * right.toNat < 2 ^ 64 then some (left * right) else none

/-- `MemoryRegion`. -/
structure Region where
  start : UInt64
  size : UInt64
  offset : UInt64

namespace Region

/-- `MemoryRegion::new`. -/
def new (buf : Slice) : Region := ⟨buf.start, buf.length, 0⟩

/-- `MemoryRegion::alloc`. -/
def alloc (mem : Region) (size align : UInt64) : Option (UInt64 × Region) :=
  let aligned := alignUp mem.offset align
  match checkedAdd aligned size with
  | none => none
  | some newOffset =>
      if mem.size < newOffset then none
      else some (mem.start + aligned, { mem with offset := newOffset })

end Region

/-- What memory is asked for. -/
inductive Request
  /-- `alloc_string`. -/
  | string (length : SliceLength)
  /-- `alloc_string_concat_val`: the length in the header, and the bytes that are added. -/
  | concat (aLen : UInt32) (extra : SliceLength)
  /-- `alloc_float`. -/
  | float
  /-- `alloc_object`. -/
  | object
  /-- `alloc_property`. -/
  | property
  /-- The elements of an array, in `alloc_array` and `array_grow`. -/
  | elements (count : UInt64)

namespace Request

/-- The size of the block; none where the multiplication overflows. -/
def size : Request → Option UInt64
  | string length => some (8 + length.val + 1)
  | concat aLen extra => some (8 + (aLen.toUInt64 + extra.val) + 1)
  | float => some 16
  | object => some 80
  | property => some 24
  | elements count => checkedMul count 8

/-- The alignment: that of `usize`, `f64` or `Value`. -/
def align : Request → UInt64
  | string _ | concat _ _ | float | object | property | elements _ => 8

end Request

/-- The block of a request, and the region after it; a request that fails leaves the region
as it is. -/
def Region.serve (mem : Region) (request : Request) : Option (UInt64 × UInt64) × Region :=
  match request.size with
  | none => (none, mem)
  | some size =>
      match mem.alloc size request.align with
      | none => (none, mem)
      | some (ptr, mem) => (some (ptr, size), mem)

/-- The blocks, pointer and size, of the requests that succeed. -/
def Region.serveAll : List Request → Region → List (UInt64 × UInt64)
  | [], _ => []
  | request :: requests, mem =>
      (mem.serve request).1.toList ++ serveAll requests (mem.serve request).2

/-- The blocks taken after `Context::new`, which takes one for the global object. -/
def blocksIn (buf : Slice) (requests : List Request) : List (UInt64 × UInt64) :=
  (Region.new buf).serveAll (.object :: requests)

/-! ## What fits together -/

/-- The part of memory that a block is. -/
def toBlock (block : UInt64 × UInt64) : Block := ⟨block.1.toNat, block.2.toNat⟩

/-- The blocks are apart and inside the slice; a pointer to a block makes a word that is a
pointer and nothing else and gives it back; an integer makes a word that is an integer and
nothing else and gives it back; and the words of the three kinds are distinct. -/
structure FitTogether (buf : Slice) (blocks : List (UInt64 × UInt64)) : Prop where
  apart : (blocks.map toBlock).Pairwise Block.Apart
  inside : ∀ block ∈ blocks, buf.start.toNat ≤ block.1.toNat ∧
    block.1.toNat + block.2.toNat ≤ buf.start.toNat + buf.length.toNat
  pointers : ∀ block ∈ blocks, (fromPtr block.1).isPtr = true ∧ (fromPtr block.1).isInt = false ∧
    ¬(fromPtr block.1).IsSpecial ∧ (fromPtr block.1).asPtr = block.1
  integers : ∀ number : Int32, (fromInt32 number).int32 = some number ∧
    (fromInt32 number).isPtr = false ∧ ¬(fromInt32 number).IsSpecial
  distinct : ∀ block ∈ blocks, ∀ (number : Int32) (special : Value), special.IsSpecial →
    fromInt32 number ≠ fromPtr block.1 ∧ fromInt32 number ≠ special ∧ fromPtr block.1 ≠ special
  distinctSpecials : ∀ left ∈ specialTags, ∀ right ∈ specialTags, ∀ leftPayload rightPayload,
    leftPayload.toNat < 2 ^ 59 → rightPayload.toNat < 2 ^ 59 →
    makeSpecial left leftPayload = makeSpecial right rightPayload →
    left = right ∧ leftPayload = rightPayload

/-! ## One block -/

/-- An offset rounded up to a multiple of eight. -/
def roundUp (offset : ℕ) : ℕ := (offset + 7) / 8 * 8

theorem toNat_alignUp {value : UInt64} (small : value.toNat < 2 ^ 63) :
    (alignUp value 8).toNat = roundUp value.toNat := by
  have isMask : (8 - 1 : UInt64).toNat = 2 ^ 3 - 1 := by decide
  have isSum : (value + 8 - 1).toNat = value.toNat + 7 := by
    have isEight : (8 : UInt64).toNat = 8 := by decide
    have isOne : (1 : UInt64).toNat = 1 := by decide
    rw [UInt64.toNat_sub, UInt64.toNat_add, isEight, isOne]
    omega
  rw [alignUp, if_neg (by decide), LowBits.toNat_and_not_mask isMask, isSum, roundUp]
  omega

theorem align_eq (request : Request) : request.align = 8 := by
  cases request <;> rfl

/-- The part of the region in use does not end behind it. -/
structure Region.InUse (mem : Region) : Prop where
  offset_le : mem.offset.toNat ≤ mem.size.toNat
  size_lt : mem.size.toNat < 2 ^ 63
  inSpace : mem.start.toNat + mem.size.toNat < 2 ^ 64

theorem Region.inUse_new (buf : Slice) : (Region.new buf).InUse :=
  ⟨Nat.zero_le _, buf.length_lt, buf.inSpace⟩

/-- A block is taken at the rounded offset where it ends inside the region, and fails
elsewhere. -/
theorem Region.InUse.alloc_eq {mem : Region} (inUse : mem.InUse) (size : UInt64) :
    mem.alloc size 8 =
      if roundUp mem.offset.toNat + size.toNat ≤ mem.size.toNat then
        some (mem.start + UInt64.ofNat (roundUp mem.offset.toNat),
          { mem with offset := UInt64.ofNat (roundUp mem.offset.toNat + size.toNat) })
      else none := by
  obtain ⟨offset_le, size_lt, -⟩ := inUse
  have isAligned := toNat_alignUp (offset_le.trans_lt size_lt)
  have sameAligned : alignUp mem.offset 8 = UInt64.ofNat (roundUp mem.offset.toNat) := by
    rw [← isAligned, UInt64.ofNat_toNat]
  rw [Region.alloc, checkedAdd, isAligned]
  by_cases fits : roundUp mem.offset.toNat + size.toNat ≤ mem.size.toNat
  · have isSum : alignUp mem.offset 8 + size =
        UInt64.ofNat (roundUp mem.offset.toNat + size.toNat) := by
      rw [UInt64.ofNat_add, UInt64.ofNat_toNat, sameAligned]
    have isSumNat : (alignUp mem.offset 8 + size).toNat =
        roundUp mem.offset.toNat + size.toNat := by
      rw [UInt64.toNat_add, isAligned, Nat.mod_eq_of_lt (by omega)]
    have notBehind : ¬mem.size < alignUp mem.offset 8 + size := by
      rw [UInt64.lt_iff_toNat_lt, isSumNat]
      omega
    rw [if_pos fits, if_pos (by omega)]
    dsimp only
    rw [if_neg notBehind, isSum, sameAligned]
  · rw [if_neg fits]
    by_cases overflows : roundUp mem.offset.toNat + size.toNat < 2 ^ 64
    · have isBehind : mem.size < alignUp mem.offset 8 + size := by
        rw [UInt64.lt_iff_toNat_lt, UInt64.toNat_add, isAligned, Nat.mod_eq_of_lt overflows]
        omega
      rw [if_pos overflows]
      dsimp only
      rw [if_pos isBehind]
    · rw [if_neg overflows]

/-- A request is served where its block ends inside the region. -/
def Request.Fits (request : Request) (mem : Region) : Prop :=
  ∃ size, request.size = some size ∧ roundUp mem.offset.toNat + size.toNat ≤ mem.size.toNat

/-- A request that does not fit fails and changes nothing. -/
theorem Region.InUse.serve_of_not_fits {mem : Region} (inUse : mem.InUse) {request : Request}
    (notFits : ¬request.Fits mem) : mem.serve request = (none, mem) := by
  rw [Region.serve]
  cases isSize : request.size with
  | none => rfl
  | some size =>
      have tooLarge : ¬roundUp mem.offset.toNat + size.toNat ≤ mem.size.toNat :=
        fun fits => notFits ⟨size, isSize, fits⟩
      dsimp only
      rw [align_eq, inUse.alloc_eq, if_neg tooLarge]

/-- The block of a request that fits lies behind the part in use, at a distance from the
start that is a multiple of eight, and the part in use now ends with it. -/
theorem Region.InUse.serve_of_fits {mem : Region} (inUse : mem.InUse) {request : Request}
    (fits : request.Fits mem) :
    ∃ ptr size after, mem.serve request = (some (ptr, size), after) ∧ after.InUse ∧
      after.start = mem.start ∧ after.size = mem.size ∧
      ptr.toNat = mem.start.toNat + roundUp mem.offset.toNat ∧
      after.offset.toNat = roundUp mem.offset.toNat + size.toNat := by
  obtain ⟨size, isSize, inside⟩ := fits
  obtain ⟨offset_le, size_lt, inSpace⟩ := inUse
  have small : roundUp mem.offset.toNat + size.toNat < 2 ^ 64 := by omega
  have isOffset : (UInt64.ofNat (roundUp mem.offset.toNat + size.toNat)).toNat =
      roundUp mem.offset.toNat + size.toNat := UInt64.toNat_ofNat_of_lt' small
  refine ⟨mem.start + UInt64.ofNat (roundUp mem.offset.toNat), size,
    { mem with offset := UInt64.ofNat (roundUp mem.offset.toNat + size.toNat) }, ?_,
    ⟨?_, size_lt, inSpace⟩, rfl, rfl, toNat_place (by omega), isOffset⟩
  · rw [Region.serve, isSize]
    dsimp only
    rw [align_eq, Region.InUse.alloc_eq ⟨offset_le, size_lt, inSpace⟩, if_pos inside]
  · rw [isOffset]
    exact inside

/-! ## A run of requests -/

/-- The blocks of a run lie one behind the other. -/
theorem Region.InUse.stacked (requests : List Request) {mem : Region} (inUse : mem.InUse) :
    Stacked (mem.start.toNat + mem.offset.toNat) ((mem.serveAll requests).map toBlock)
      (mem.start.toNat + mem.size.toNat) := by
  induction requests generalizing mem with
  | nil => exact .nil (Nat.add_le_add_left inUse.offset_le _)
  | cons request requests ih =>
      by_cases fits : request.Fits mem
      · obtain ⟨ptr, size, after, isServed, stillInUse, sameStart, sameSize, isPtr, isOffset⟩ :=
          inUse.serve_of_fits fits
        have rest := ih stillInUse
        rw [sameStart, sameSize, isOffset] at rest
        rw [Region.serveAll, isServed, Option.toList_some, List.singleton_append, List.map_cons]
        refine .cons ?_ ?_
        · change mem.start.toNat + mem.offset.toNat ≤ ptr.toNat
          rw [isPtr, roundUp]
          omega
        · rw [toBlock, isPtr, Nat.add_assoc]
          exact rest
      · rw [Region.serveAll, inUse.serve_of_not_fits fits]
        exact ih inUse

/-- The blocks of a run are as far from a multiple of eight as the start. -/
theorem Region.InUse.ptr_mod_eight (requests : List Request) {mem : Region} (inUse : mem.InUse) :
    ∀ block ∈ mem.serveAll requests, block.1.toNat % 8 = mem.start.toNat % 8 := by
  induction requests generalizing mem with
  | nil => exact fun block isBlock => by cases isBlock
  | cons request requests ih =>
      intro block isBlock
      by_cases fits : request.Fits mem
      · obtain ⟨ptr, size, after, isServed, stillInUse, sameStart, -, isPtr, -⟩ :=
          inUse.serve_of_fits fits
        rw [Region.serveAll, isServed, Option.toList_some, List.singleton_append] at isBlock
        rcases List.mem_cons.mp isBlock with rfl | isLater
        · rw [isPtr, roundUp]
          omega
        · rw [ih stillInUse block isLater, sameStart]
      · rw [Region.serveAll, inUse.serve_of_not_fits fits] at isBlock
        exact ih inUse block isBlock

/-- A request is for more than a size. -/
def Request.Exceeds (request : Request) (limit : UInt64) : Prop :=
  ∀ size, request.size = some size → limit < size

/-- A run gives a block unless every request alone is for more than the region has. -/
theorem Region.InUse.serveAll_eq_nil_iff (requests : List Request) {mem : Region}
    (inUse : mem.InUse) (isUnused : mem.offset = 0) :
    mem.serveAll requests = [] ↔ ∀ request ∈ requests, request.Exceeds mem.size := by
  have fits_iff : ∀ request : Request, request.Fits mem ↔ ¬request.Exceeds mem.size := by
    intro request
    have atStart : roundUp mem.offset.toNat = 0 := by
      rw [isUnused]
      rfl
    rw [Request.Fits, Request.Exceeds, not_forall, atStart]
    refine exists_congr fun size => ?_
    rw [Nat.zero_add, ← UInt64.le_iff_toNat_le, Classical.not_imp, UInt64.not_lt]
  induction requests with
  | nil => exact iff_of_true rfl fun request isRequest => by cases isRequest
  | cons request requests ih =>
      rw [List.forall_mem_cons, Region.serveAll]
      by_cases fits : request.Fits mem
      · obtain ⟨ptr, size, after, isServed, -⟩ := inUse.serve_of_fits fits
        rw [isServed, Option.toList_some, List.singleton_append]
        exact iff_of_false (List.cons_ne_nil _ _) fun exceeds => (fits_iff request).mp fits exceeds.1
      · have exceeds : request.Exceeds mem.size := not_not.mp ((fits_iff request).not.mp fits)
        rw [inUse.serve_of_not_fits fits, Option.toList_none, List.nil_append, and_iff_right exceeds]
        exact ih

/-! ## Tagged words and the allocator -/

section Buffers

variable (buf : Slice) (requests : List Request)

theorem blocksIn_stacked :
    Stacked buf.start.toNat ((blocksIn buf requests).map toBlock)
      (buf.start.toNat + buf.length.toNat) :=
  (Region.inUse_new buf).stacked (.object :: requests)

/-- Blocks at multiples of eight fit together with tagged words. -/
theorem fitTogether_of_blocks
    (aligned : ∀ block ∈ blocksIn buf requests, block.1.toNat % 8 = 0) :
    FitTogether buf (blocksIn buf requests) := by
  have stacked := blocksIn_stacked buf requests
  have notPtr : ∀ number, (fromInt32 number).isPtr = false := fun number =>
    not_isPtr_of_isInt (isInt_fromInt32 number)
  refine ⟨stacked.pairwise, ?_, ?_, ?_, ?_, ?_⟩
  · intro block isBlock
    exact stacked.inside (toBlock block) (List.mem_map_of_mem isBlock)
  · intro block isBlock
    have isPtr := isPtr_fromPtr (aligned block isBlock)
    refine ⟨isPtr, not_isInt_of_isPtr isPtr, fun isSpecial => ?_,
      asPtr_fromPtr (aligned block isBlock)⟩
    rw [isSpecial.not_isPtr] at isPtr
    cases isPtr
  · intro number
    refine ⟨int32_fromInt32 number, notPtr number, fun isSpecial => ?_⟩
    have isInt := isInt_fromInt32 number
    rw [isSpecial.not_isInt] at isInt
    cases isInt
  · intro block isBlock number special isSpecial
    have isPtr := isPtr_fromPtr (aligned block isBlock)
    have isInt := isInt_fromInt32 number
    refine ⟨fun same => ?_, fun same => ?_, fun same => ?_⟩
    · rw [← same, notPtr number] at isPtr
      cases isPtr
    · rw [same, isSpecial.not_isInt] at isInt
      cases isInt
    · rw [same, isSpecial.not_isPtr] at isPtr
      cases isPtr
  · intro left isLeft right isRight leftPayload rightPayload leftFits rightFits
    exact makeSpecial_injective isLeft isRight leftFits rightFits

/-- Where the blocks fit together, they are multiples of eight; so the slice starts at one,
or there are no blocks. -/
theorem aligned_of_fitTogether (fit : FitTogether buf (blocksIn buf requests)) :
    buf.start.toNat % 8 = 0 ∨
      ∀ request ∈ Request.object :: requests, request.Exceeds buf.length := by
  cases isBlocks : blocksIn buf requests with
  | nil => exact .inr (((Region.inUse_new buf).serveAll_eq_nil_iff _ rfl).mp isBlocks)
  | cons block blocks =>
      have isBlock : block ∈ blocksIn buf requests := by
        rw [isBlocks]
        exact List.mem_cons_self
      have isBack := (fit.pointers block isBlock).2.2.2
      rw [asPtr_fromPtr_iff, (Region.inUse_new buf).ptr_mod_eight _ block isBlock] at isBack
      exact .inl isBack

/-- Tagged words and the allocator fit together exactly when the slice starts at a multiple
of eight, or is too short for every block that is asked for. -/
theorem fitTogether_iff :
    FitTogether buf (blocksIn buf requests) ↔
      buf.start.toNat % 8 = 0 ∨
        ∀ request ∈ Request.object :: requests, request.Exceeds buf.length := by
  refine ⟨aligned_of_fitTogether buf requests, ?_⟩
  rintro (aligned | tooLarge)
  · refine fitTogether_of_blocks buf requests fun block isBlock => ?_
    rw [(Region.inUse_new buf).ptr_mod_eight _ block isBlock]
    exact aligned
  · have noBlocks : blocksIn buf requests = [] :=
      ((Region.inUse_new buf).serveAll_eq_nil_iff _ rfl).mpr tooLarge
    refine fitTogether_of_blocks buf requests fun block isBlock => ?_
    rw [noBlocks] at isBlock
    cases isBlock

end Buffers

/-- A slice of 4096 bytes at the address 4097. -/
def oddSlice : Slice := ⟨4097, 4096, by decide, by decide⟩

/-- The pointer to the global object is not read back from its word. -/
theorem not_always_fitTogether :
    ¬∀ (buf : Slice) (requests : List Request), FitTogether buf (blocksIn buf requests) := by
  intro always
  rcases aligned_of_fitTogether oddSlice [] (always oddSlice []) with aligned | tooLarge
  · revert aligned
    decide
  · have isShort := tooLarge .object List.mem_cons_self 80 rfl
    revert isShort
    decide

end Tagged
end Script
end MuonJs
