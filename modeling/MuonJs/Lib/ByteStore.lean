import Mathlib

/-!
# Numbers in a block of bytes

A number is written as a fixed count of bytes, the least significant first, and read
back modulo the power of the count.  A block of bytes is read and written at a position;
a write is seen by a read of the same place and by no other byte.
-/

namespace MuonJs
namespace ByteStore

/-! ## Little-endian numbers -/

/-- The low bytes of a number, the least significant first. -/
def toLe : ℕ → ℕ → List UInt8
  | 0, _ => []
  | width + 1, number => UInt8.ofNat (number % 256) :: toLe width (number / 256)

/-- The number that bytes denote, the least significant first. -/
def fromLe : List UInt8 → ℕ
  | [] => 0
  | byte :: bytes => byte.toNat + 256 * fromLe bytes

theorem length_toLe (width number : ℕ) : (toLe width number).length = width := by
  induction width generalizing number with
  | zero => rfl
  | succ width ih => rw [toLe, List.length_cons, ih]

theorem fromLe_toLe (width number : ℕ) : fromLe (toLe width number) = number % 256 ^ width := by
  induction width generalizing number with
  | zero => rw [toLe, fromLe, pow_zero, Nat.mod_one]
  | succ width ih =>
      have isByte : (UInt8.ofNat (number % 256)).toNat = number % 256 :=
        UInt8.toNat_ofNat_of_lt' (Nat.mod_lt _ (by decide))
      rw [toLe, fromLe, ih, isByte, pow_succ', Nat.mod_mul]

/-- A number that fits is read back. -/
theorem fromLe_toLe_of_lt {width number : ℕ} (fits : number < 256 ^ width) :
    fromLe (toLe width number) = number := by
  rw [fromLe_toLe, Nat.mod_eq_of_lt fits]

/-- An integer in two's complement. -/
def toTwos (width : ℕ) (number : ℤ) : List UInt8 :=
  toLe width (number % 256 ^ width).toNat

/-- The signed integer that bytes denote in two's complement. -/
def fromTwos (bytes : List UInt8) : ℤ :=
  if 2 * fromLe bytes < 256 ^ bytes.length then fromLe bytes
  else fromLe bytes - 256 ^ bytes.length

theorem length_toTwos (width : ℕ) (number : ℤ) : (toTwos width number).length = width :=
  length_toLe _ _

theorem fromLe_toTwos (width : ℕ) (number : ℤ) :
    (fromLe (toTwos width number) : ℤ) = number % 256 ^ width := by
  have positive : (0 : ℤ) < 256 ^ width := by positivity
  have nonneg := Int.emod_nonneg number positive.ne'
  have below := Int.emod_lt_of_pos number positive
  have fits : (number % 256 ^ width).toNat < 256 ^ width := by
    have isCast : ((256 ^ width : ℕ) : ℤ) = 256 ^ width := by push_cast; rfl
    omega
  rw [toTwos, fromLe_toLe_of_lt fits, Int.toNat_of_nonneg nonneg]

theorem fromTwos_toTwos (width : ℕ) (number : ℤ) :
    fromTwos (toTwos width number) =
      if 2 * (number % 256 ^ width) < 256 ^ width then number % 256 ^ width
      else number % 256 ^ width - 256 ^ width := by
  have isRest := fromLe_toTwos width number
  have isCast : ((256 ^ width : ℕ) : ℤ) = 256 ^ width := by push_cast; rfl
  rw [fromTwos, length_toTwos, isRest]
  generalize fromLe (toTwos width number) = low at isRest
  by_cases isLow : 2 * low < 256 ^ width
  · rw [if_pos isLow, if_pos (by omega)]
  · rw [if_neg isLow, if_neg (by omega)]

/-! ## Reading and writing -/

/-- The bytes at a position. -/
def load (bytes : List UInt8) (start count : ℕ) : List UInt8 := (bytes.drop start).take count

/-- Bytes put at a position. -/
def store (bytes : List UInt8) (start : ℕ) (patch : List UInt8) : List UInt8 :=
  bytes.take start ++ patch ++ bytes.drop (start + patch.length)

section Block

variable {bytes patch : List UInt8} {start : ℕ}

theorem length_store (inside : start + patch.length ≤ bytes.length) :
    (store bytes start patch).length = bytes.length := by
  rw [store, List.length_append, List.length_append, List.length_take, List.length_drop]
  omega

theorem length_load {count : ℕ} (inside : start + count ≤ bytes.length) :
    (load bytes start count).length = count := by
  rw [load, List.length_take, List.length_drop]
  omega

/-- A write is read back. -/
theorem load_store (inside : start + patch.length ≤ bytes.length) :
    load (store bytes start patch) start patch.length = patch := by
  have isFront : (bytes.take start).length = start := by
    rw [List.length_take]
    omega
  rw [load, store, List.append_assoc, List.drop_left' isFront, List.take_left' rfl]

/-- Bytes that are already there change nothing. -/
theorem store_load {count : ℕ} (inside : start + count ≤ bytes.length) :
    store bytes start (load bytes start count) = bytes := by
  rw [store, length_load inside, load, ← List.drop_drop, List.append_assoc,
    List.take_append_drop, List.take_append_drop]

/-- No other byte changes. -/
theorem getElem?_store {position : ℕ} (inside : start + patch.length ≤ bytes.length)
    (outside : position < start ∨ start + patch.length ≤ position) :
    (store bytes start patch)[position]? = bytes[position]? := by
  have isFront : (bytes.take start).length = start := by
    rw [List.length_take]
    omega
  rw [store, List.append_assoc]
  obtain before | after := outside
  · rw [List.getElem?_append_left (by omega), List.getElem?_take_of_lt before]
  · rw [List.getElem?_append_right (by omega), isFront,
      List.getElem?_append_right (by omega), List.getElem?_drop]
    congr 1
    omega

/-- A read elsewhere does not see a write. -/
theorem load_store_of_disjoint {other count : ℕ} (inside : start + patch.length ≤ bytes.length)
    (disjoint : other + count ≤ start ∨ start + patch.length ≤ other) :
    load (store bytes start patch) other count = load bytes other count := by
  apply List.ext_getElem?
  intro position
  by_cases within : position < count
  · rw [load, load, List.getElem?_take_of_lt within, List.getElem?_take_of_lt within,
      List.getElem?_drop, List.getElem?_drop]
    exact getElem?_store inside (by omega)
  · rw [load, load, List.getElem?_take_eq_none (not_lt.mp within),
      List.getElem?_take_eq_none (not_lt.mp within)]

end Block

end ByteStore
end MuonJs
