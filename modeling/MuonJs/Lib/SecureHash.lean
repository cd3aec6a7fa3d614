import Mathlib

/-!
# The hash SHA-1

The secure hash standard computes on bit strings, most significant bit first, and
on words of 32 bits.  A message is padded to a multiple of 512 bits with a one,
zeros, and its length in 64 bits; each block of 16 words is expanded to a schedule
of 80 words, and 80 rounds mix the schedule into the five words of the hash value.

`Bits.ofBytes` reads bytes as a bit string, and the lemmas about it cut, pad and
regroup such strings.
-/

namespace MuonJs

/-! ## Bit strings -/

namespace Bits

/-- The bits of a number, most significant one first. -/
def ofNat (width value : ℕ) : List Bool :=
  (List.range width).map fun i => value.testBit (width - 1 - i)

/-- The number that a bit string denotes. -/
def toNat (bits : List Bool) : ℕ :=
  bits.foldl (fun value bit => 2 * value + bit.toNat) 0

/-- The bits of a string of bytes. -/
def ofBytes (bytes : List UInt8) : List Bool :=
  bytes.flatMap fun byte => ofNat 8 byte.toNat

@[simp] theorem length_ofNat (width value : ℕ) : (ofNat width value).length = width := by
  rw [ofNat, List.length_map, List.length_range]

@[simp] theorem ofBytes_cons (byte : UInt8) (bytes : List UInt8) :
    ofBytes (byte :: bytes) = ofNat 8 byte.toNat ++ ofBytes bytes :=
  List.flatMap_cons

@[simp] theorem ofBytes_append (first second : List UInt8) :
    ofBytes (first ++ second) = ofBytes first ++ ofBytes second :=
  List.flatMap_append

@[simp] theorem length_ofBytes (bytes : List UInt8) :
    (ofBytes bytes).length = 8 * bytes.length := by
  induction bytes with
  | nil => rfl
  | cons byte bytes ih =>
      rw [ofBytes_cons, List.length_append, length_ofNat, ih, List.length_cons]
      omega

/-- Leaving out bytes leaves out their bits. -/
theorem ofBytes_drop (count : ℕ) (bytes : List UInt8) :
    ofBytes (bytes.drop count) = (ofBytes bytes).drop (8 * count) := by
  induction count generalizing bytes with
  | zero => rfl
  | succ count ih =>
      cases bytes with
      | nil => rfl
      | cons byte bytes =>
          rw [List.drop_succ_cons, ih, ofBytes_cons, Nat.mul_succ, Nat.add_comm,
            ← List.drop_drop, List.drop_left' (length_ofNat 8 _)]

/-- The bits of the leading bytes come first. -/
theorem ofBytes_take (count : ℕ) (bytes : List UInt8) :
    ofBytes (bytes.take count) = (ofBytes bytes).take (8 * count) := by
  induction count generalizing bytes with
  | zero => rfl
  | succ count ih =>
      cases bytes with
      | nil => rfl
      | cons byte bytes =>
          have kept := @List.take_length_add_append _ (ofNat 8 byte.toNat)
            (ofBytes bytes) (8 * count)
          rw [length_ofNat] at kept
          rw [List.take_succ_cons, ofBytes_cons, ih, ofBytes_cons, Nat.mul_succ,
            Nat.add_comm, kept]

/-- The numbers below a product, row by row. -/
theorem map_range_mul {α : Type} (rows columns : ℕ) (f : ℕ → α) :
    (List.range (rows * columns)).map f =
      (List.range rows).flatMap fun row =>
        (List.range columns).map fun column => f (row * columns + column) := by
  induction rows with
  | zero => rw [Nat.zero_mul]; rfl
  | succ rows ih =>
      rw [Nat.succ_mul, List.range_add, List.map_append, ih, List.range_succ,
        List.flatMap_append, List.flatMap_singleton, List.map_map]
      rfl

/-- A number denoted by bits that follow other bits. -/
theorem foldl_eq (value : ℕ) (bits : List Bool) :
    bits.foldl (fun value bit => 2 * value + bit.toNat) value =
      value * 2 ^ bits.length + toNat bits := by
  induction bits generalizing value with
  | nil => rw [List.foldl_nil, List.length_nil, pow_zero, mul_one]; rfl
  | cons bit bits ih =>
      have first : toNat (bit :: bits) = (2 * 0 + bit.toNat) * 2 ^ bits.length +
          toNat bits := ih _
      rw [List.foldl_cons, ih, first, List.length_cons, pow_succ]
      ring

theorem toNat_append (first second : List Bool) :
    toNat (first ++ second) = toNat first * 2 ^ second.length + toNat second := by
  rw [toNat, List.foldl_append, foldl_eq]
  rfl

set_option maxRecDepth 8000 in
/-- The eight bits of a byte denote it. -/
theorem toNat_ofNat_byte (byte : UInt8) : toNat (ofNat 8 byte.toNat) = byte.toNat := by
  have all : ∀ value < 256, toNat (ofNat 8 value) = value := by decide
  exact all byte.toNat byte.toNat_lt

/-- The hexadecimal digits of a number, in lower case. -/
def hexDigits (count value : ℕ) : List Char :=
  (List.range count).map fun i => Nat.digitChar (value / 16 ^ (count - 1 - i) % 16)

/-- The digits of a number in two parts. -/
theorem hexDigits_add (first second high : ℕ) {low : ℕ} (isLow : low < 16 ^ second) :
    hexDigits (first + second) (high * 16 ^ second + low) =
      hexDigits first high ++ hexDigits second low := by
  unfold hexDigits
  rw [List.range_add, List.map_append, List.map_map]
  congr 1
  · refine List.map_congr_left fun i isDigit => ?_
    have inRange : i < first := List.mem_range.mp isDigit
    have position : first + second - 1 - i = second + (first - 1 - i) := by omega
    rw [position, pow_add, ← Nat.div_div_eq_div_mul, Nat.mul_comm high,
      Nat.mul_add_div (by positivity), Nat.div_eq_of_lt isLow, Nat.add_zero]
  · refine List.map_congr_left fun i isDigit => ?_
    have inRange : i < second := List.mem_range.mp isDigit
    have position : first + second - 1 - (first + i) = second - 1 - i := by omega
    have split : 16 ^ second = 16 ^ (second - 1 - i) * (16 * 16 ^ i) := by
      rw [← pow_succ', ← pow_add]
      congr 1
      omega
    dsimp only [Function.comp]
    rw [position, split, ← Nat.mul_assoc, Nat.mul_comm high, Nat.mul_assoc,
      Nat.mul_add_div (by positivity), Nat.mul_comm high, Nat.mul_assoc,
      Nat.mul_add_mod]

end Bits

/-! ## The standard -/

namespace SecureHash

/-- A word of 32 bits. -/
abbrev Word := BitVec 32

/-- The rotation to the left. -/
def rotl (count : ℕ) (word : Word) : Word :=
  word <<< count ||| word >>> (32 - count)

/-- Choose. -/
def ch (x y z : Word) : Word := (x &&& y) ^^^ (~~~x &&& z)

/-- Parity. -/
def parity (x y z : Word) : Word := x ^^^ y ^^^ z

/-- Majority. -/
def maj (x y z : Word) : Word := (x &&& y) ^^^ (x &&& z) ^^^ (y &&& z)

/-- The function of a round. -/
def logical (round : ℕ) : Word → Word → Word → Word :=
  if round < 20 then ch
  else if round < 40 then parity
  else if round < 60 then maj
  else parity

/-- The constant of a round. -/
def constant (round : ℕ) : Word :=
  if round < 20 then 0x5a827999
  else if round < 40 then 0x6ed9eba1
  else if round < 60 then 0x8f1bbcdc
  else 0xca62c1d6

/-- For every length some number of zeros pads a message and a one so that 64 bits
are missing to a multiple of 512. -/
theorem exists_zeros (length : ℕ) : ∃ zeros, (length + 1 + zeros) % 512 = 448 :=
  ⟨(959 - length % 512) % 512, by omega⟩

/-- The padded message. -/
def pad (message : List Bool) : List Bool :=
  message ++ true :: List.replicate (Nat.find (exists_zeros message.length)) false ++
    Bits.ofNat 64 message.length

/-- The words of a block. -/
def blockWord (block : List Bool) (i : ℕ) : Word :=
  BitVec.ofNat 32 (Bits.toNat ((block.drop (32 * i)).take 32))

/-- The message schedule. -/
def schedule (block : List Bool) (t : ℕ) : Word :=
  if t < 16 then blockWord block t
  else rotl 1 (schedule block (t - 3) ^^^ schedule block (t - 8) ^^^
    schedule block (t - 14) ^^^ schedule block (t - 16))
termination_by t

/-- The five words of the hash value. -/
structure HashValue where
  a : Word
  b : Word
  c : Word
  d : Word
  e : Word

/-- One round. -/
def round (block : List Bool) (value : HashValue) (t : ℕ) : HashValue where
  a := rotl 5 value.a + logical t value.b value.c value.d + value.e + constant t +
    schedule block t
  b := value.a
  c := rotl 30 value.b
  d := value.c
  e := value.d

/-- The hash value after one more block. -/
def compress (value : HashValue) (block : List Bool) : HashValue :=
  let mixed := (List.range 80).foldl (round block) value
  ⟨value.a + mixed.a, value.b + mixed.b, value.c + mixed.c, value.d + mixed.d,
    value.e + mixed.e⟩

/-- The initial hash value. -/
def initial : HashValue :=
  ⟨0x67452301, 0xefcdab89, 0x98badcfe, 0x10325476, 0xc3d2e1f0⟩

/-- The message digest of a bit string. -/
def sha1 (message : List Bool) : BitVec 160 :=
  let padded := pad message
  let value := (List.range (padded.length / 512)).foldl
    (fun value i => compress value ((padded.drop (512 * i)).take 512)) initial
  value.a ++ value.b ++ value.c ++ value.d ++ value.e

end SecureHash
end MuonJs
