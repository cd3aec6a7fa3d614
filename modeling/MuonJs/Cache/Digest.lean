import MuonJs.Cache.Sha1
import MuonJs.Lib.SecureHash

/-!
# Script hashes and the standard

Scripts are stored under the digest that clients compute themselves, so
`sha1_hex` has to be SHA-1.  Its words are those of the standard, its padding loop
ends and leaves whole chunks, and the or-forms of its round functions are the
xor-forms of the standard.
-/

namespace MuonJs
namespace Cache
namespace Sha1

/-! ## Padding -/

/-- The loop that appends zeros: `while (msg.len() % 64) != 56`. -/
def pushZeros (message : Bytes) : Bytes :=
  if message.length % 64 ≠ 56 then pushZeros (message ++ [0]) else message
termination_by (120 - message.length % 64) % 64
decreasing_by
  rw [List.length_append, List.length_singleton]
  omega

/-- The loop appends as many zeros as are missing. -/
theorem pushZeros_eq (message : Bytes) :
    pushZeros message =
      message ++ List.replicate ((120 - message.length % 64) % 64) 0 := by
  induction message using pushZeros.induct with
  | case1 message continues ih =>
      rw [pushZeros, if_pos continues, ih, List.append_assoc, List.singleton_append,
        ← List.replicate_succ, List.length_append, List.length_singleton]
      congr 2
      omega
  | case2 message ends =>
      have isMultiple : message.length % 64 = 56 := not_not.mp ends
      rw [pushZeros, if_neg ends, isMultiple]
      exact (List.append_nil message).symm

/-- The padded message as the code builds it. -/
theorem padded_eq_pushZeros (input : Bytes) :
    padded input =
      pushZeros (input ++ [0x80]) ++ toBeBytes (UInt64.ofNat input.length * 8) := by
  have missing : (120 - (input.length + 1) % 64) % 64 = (119 - input.length % 64) % 64 := by
    omega
  rw [pushZeros_eq, padded, List.length_append, List.length_singleton, missing,
    List.append_assoc input [0x80], List.singleton_append]

theorem length_padded (input : Bytes) : (padded input).length % 64 = 0 := by
  rw [padded, List.length_append, List.length_append, List.length_cons,
    List.length_replicate, toBeBytes, List.length_map, List.length_range]
  omega

/-- `slice::chunks`. -/
def chunks (message : Bytes) : List Bytes :=
  if message = [] then []
  else message.take 64 :: chunks (message.drop 64)
termination_by message.length
decreasing_by
  rename_i nonempty
  have positive := List.length_pos_iff.mpr nonempty
  rw [List.length_drop]
  omega

/-- A message of whole chunks is cut at the multiples of their length. -/
theorem chunks_eq {message : Bytes} (whole : message.length % 64 = 0) :
    chunks message = (List.range (message.length / 64)).map fun i =>
      (message.drop (64 * i)).take 64 := by
  induction message using chunks.induct with
  | case1 => rw [chunks, if_pos rfl]; rfl
  | case2 message nonempty ih =>
      have positive := List.length_pos_iff.mpr nonempty
      have more : message.length / 64 = (message.drop 64).length / 64 + 1 := by
        rw [List.length_drop]
        omega
      rw [chunks, if_neg nonempty, ih (by rw [List.length_drop]; omega), more,
        List.range_succ_eq_map, List.map_cons, List.map_map]
      congr 1
      refine List.map_congr_left fun i _ => ?_
      rw [List.drop_drop, Function.comp_apply, Nat.mul_succ, Nat.add_comm]

/-- Each chunk of a padded message has 64 bytes. -/
theorem length_of_mem_chunks {input chunk : Bytes} (isChunk : chunk ∈ chunks (padded input)) :
    chunk.length = 64 := by
  rw [chunks_eq (length_padded input)] at isChunk
  obtain ⟨i, inRange, rfl⟩ := List.mem_map.mp isChunk
  rw [List.mem_range] at inRange
  rw [List.length_take, List.length_drop]
  omega

open SecureHash

/-- The bits of a number of eight bytes. -/
theorem ofBytes_toBeBytes (value : UInt64) :
    Bits.ofBytes (toBeBytes value) = Bits.ofNat 64 value.toNat := by
  rw [Bits.ofNat, show 64 = 8 * 8 from rfl, Bits.map_range_mul, toBeBytes, Bits.ofBytes,
    List.flatMap_map]
  refine List.flatMap_congr fun row isRow => ?_
  rw [Bits.ofNat]
  refine List.map_congr_left fun column isColumn => ?_
  rw [List.mem_range] at isRow isColumn
  have isShift : (UInt64.ofNat (8 * (7 - row))).toNat % 64 = 8 * (7 - row) := by
    rw [UInt64.toNat_ofNat']
    omega
  have position : 8 * (7 - row) + (8 - 1 - column) = 8 * 8 - 1 - (row * 8 + column) := by
    omega
  rw [UInt64.toNat_toUInt8, UInt64.toNat_shiftRight, isShift, Nat.testBit_mod_two_pow,
    Nat.testBit_shiftRight, position, decide_eq_true (by omega), Bool.true_and]

theorem ofBytes_replicate_zero (count : ℕ) :
    Bits.ofBytes (List.replicate count 0) = List.replicate (8 * count) false := by
  induction count with
  | zero => rfl
  | succ count ih =>
      rw [List.replicate_succ, Bits.ofBytes_cons, ih, Nat.mul_succ, Nat.add_comm,
        List.replicate_add]
      rfl

/-- The bits of the padded message are padded as the standard says. -/
theorem ofBytes_padded {input : Bytes} (short : input.length < 2 ^ 61) :
    Bits.ofBytes (padded input) = pad (Bits.ofBytes input) := by
  have zeros : Nat.find (exists_zeros (Bits.ofBytes input).length) =
      7 + 8 * ((119 - input.length % 64) % 64) := by
    rw [Nat.find_eq_iff, Bits.length_ofBytes]
    refine ⟨by omega, fun fewer isFewer => ?_⟩
    omega
  have bitLength : (UInt64.ofNat input.length * 8).toNat = 8 * input.length := by
    rw [UInt64.toNat_mul, UInt64.toNat_ofNat']
    change input.length % 2 ^ 64 * 8 % 2 ^ 64 = _
    omega
  have one : Bits.ofNat 8 (0x80 : UInt8).toNat = true :: List.replicate 7 false := by
    decide
  rw [pad, zeros, padded, Bits.ofBytes_append, Bits.ofBytes_append, Bits.ofBytes_cons,
    ofBytes_replicate_zero, ofBytes_toBeBytes, bitLength, one, Bits.length_ofBytes,
    List.replicate_add, List.cons_append, List.append_assoc]

/-! ## Words -/

theorem toBitVec_rotateLeft_one (word : UInt32) :
    (rotateLeft word 1).toBitVec = rotl 1 word.toBitVec := rfl

theorem or_eq_ch (x y z : Word) : (x &&& y) ||| (~~~x &&& z) = ch x y z := by
  refine BitVec.eq_of_getLsbD_eq fun i inRange => ?_
  simp only [ch, BitVec.getLsbD_or, BitVec.getLsbD_and, BitVec.getLsbD_not,
    BitVec.getLsbD_xor, inRange, decide_true, Bool.true_and]
  cases x.getLsbD i <;> cases y.getLsbD i <;> cases z.getLsbD i <;> rfl

theorem or_eq_maj (x y z : Word) :
    (x &&& y) ||| (x &&& z) ||| (y &&& z) = maj x y z := by
  refine BitVec.eq_of_getLsbD_eq fun i _ => ?_
  simp only [maj, BitVec.getLsbD_or, BitVec.getLsbD_and, BitVec.getLsbD_xor]
  cases x.getLsbD i <;> cases y.getLsbD i <;> cases z.getLsbD i <;> rfl

/-- Bytes are read into a word as their bits into a number. -/
theorem foldl_bytes (bytes : Bytes) (value : ℕ) :
    bytes.foldl (fun word byte => word * 256 + byte.toUInt32) (UInt32.ofNat value) =
      UInt32.ofNat (value * 2 ^ (8 * bytes.length) + Bits.toNat (Bits.ofBytes bytes)) := by
  induction bytes generalizing value with
  | nil => rw [List.foldl_nil, List.length_nil, Nat.mul_zero, pow_zero, mul_one]; rfl
  | cons byte bytes ih =>
      have next : UInt32.ofNat value * 256 + byte.toUInt32 =
          UInt32.ofNat (value * 256 + byte.toNat) := by
        rw [UInt32.ofNat_add, UInt32.ofNat_mul]
        exact congrArg _ (UInt32.ofNat_uInt8ToNat byte).symm
      rw [List.foldl_cons, next, ih, Bits.ofBytes_cons, Bits.toNat_append,
        Bits.toNat_ofNat_byte, Bits.length_ofBytes, List.length_cons, show 8 * (bytes.length + 1) = 8 + 8 * bytes.length by omega,
        pow_add]
      congr 1
      ring

/-- The words of a block as the code reads them. -/
theorem fromBeBytes_eq (chunk : Bytes) (i : ℕ) :
    (fromBeBytes (chunk.drop (4 * i))).toBitVec =
      blockWord (Bits.ofBytes chunk) i := by
  rw [fromBeBytes, show (0 : UInt32) = UInt32.ofNat 0 from rfl, foldl_bytes, Nat.zero_mul,
    Nat.zero_add, Bits.ofBytes_take, Bits.ofBytes_drop, blockWord, ← Nat.mul_assoc]
  rfl

/-- The schedule of the standard, as words of the code. -/
def standardWord (block : List Bool) (t : ℕ) : UInt32 :=
  ⟨SecureHash.schedule block t⟩

/-- The last words first. -/
theorem getD_reverse_map_range {α : Type} (f : ℕ → α) (count i : ℕ) (default : α)
    (inRange : i < count) :
    ((List.range count).reverse.map f).getD i default = f (count - 1 - i) := by
  have isIndex : i < ((List.range count).reverse.map f).length := by
    rw [List.length_map, List.length_reverse, List.length_range]
    exact inRange
  rw [List.getD_eq_getElem _ _ isIndex, List.getElem_map, List.getElem_reverse,
    List.getElem_range, List.length_range]

theorem standardWord_of_ge (block : List Bool) {t : ℕ} (late : 16 ≤ t) :
    standardWord block t = rotateLeft (standardWord block (t - 3) ^^^
      standardWord block (t - 8) ^^^ standardWord block (t - 14) ^^^
        standardWord block (t - 16)) 1 := by
  refine UInt32.toBitVec_inj.mp ?_
  rw [toBitVec_rotateLeft_one, standardWord, SecureHash.schedule, if_neg (not_lt.mpr late)]
  rfl

/-- The code appends the words of the standard to those that it has. -/
theorem schedule_eq (block : List Bool) (count : ℕ) {t : ℕ} (late : 16 ≤ t) :
    schedule count ((List.range t).reverse.map (standardWord block)) =
      (List.range (t + count)).reverse.map (standardWord block) := by
  induction count generalizing t with
  | zero => rfl
  | succ count ih =>
      have next : standardWord block t ::
          (List.range t).reverse.map (standardWord block) =
            (List.range (t + 1)).reverse.map (standardWord block) := by
        rw [List.range_succ, List.reverse_append, List.map_append]
        rfl
      rw [schedule, getD_reverse_map_range _ _ _ _ (by omega),
        getD_reverse_map_range _ _ _ _ (by omega),
        getD_reverse_map_range _ _ _ _ (by omega),
        getD_reverse_map_range _ _ _ _ (by omega),
        Nat.sub_sub, Nat.sub_sub, Nat.sub_sub, Nat.sub_sub,
        ← standardWord_of_ge block late, next, ih (by omega), Nat.succ_add_eq_add_succ]

theorem chunkWords_eq (chunk : Bytes) :
    chunkWords chunk = (List.range 80).map (standardWord (Bits.ofBytes chunk)) := by
  have first : ((List.range 16).reverse.map fun i => fromBeBytes (chunk.drop (4 * i))) =
      (List.range 16).reverse.map (standardWord (Bits.ofBytes chunk)) := by
    refine List.map_congr_left fun i isFirst => ?_
    rw [List.mem_reverse, List.mem_range] at isFirst
    refine UInt32.toBitVec_inj.mp ?_
    rw [fromBeBytes_eq, standardWord, SecureHash.schedule, if_pos isFirst]
  rw [chunkWords, first, schedule_eq _ 64 (le_refl 16), List.map_reverse,
    List.reverse_reverse]

/-! ## Rounds -/

/-- The words of the code as a hash value of the standard. -/
def Words.toHashValue (words : Words) : HashValue :=
  ⟨words.a.toBitVec, words.b.toBitVec, words.c.toBitVec, words.d.toBitVec,
    words.e.toBitVec⟩

/-- A round of the code is a round of the standard. -/
theorem toHashValue_round (block : List Bool) (words : Words) (t : ℕ) :
    (round words t (standardWord block t)).toHashValue =
      SecureHash.round block words.toHashValue t := by
  have isLogical : (if t < 20 then
        (words.b &&& words.c ||| ~~~words.b &&& words.d, (0x5A827999 : UInt32))
      else if t < 40 then (words.b ^^^ words.c ^^^ words.d, 0x6ED9EBA1)
      else if t < 60 then
        (words.b &&& words.c ||| words.b &&& words.d ||| words.c &&& words.d, 0x8F1BBCDC)
      else (words.b ^^^ words.c ^^^ words.d, 0xCA62C1D6)) =
      (⟨logical t words.b.toBitVec words.c.toBitVec words.d.toBitVec⟩,
        ⟨constant t⟩) := by
    unfold logical constant
    split
    · rw [← or_eq_ch]
      rfl
    · split
      · rfl
      · split
        · rw [← or_eq_maj]
          rfl
        · rfl
  rw [round, isLogical]
  rfl

/-- A chunk of the code is a block of the standard. -/
theorem toHashValue_chunk (words : Words) (bytes : Bytes) :
    (chunk words bytes).toHashValue =
      compress words.toHashValue (Bits.ofBytes bytes) := by
  have indexed : ((List.range 80).map (standardWord (Bits.ofBytes bytes))).zipIdx =
      (List.range 80).map fun t => (standardWord (Bits.ofBytes bytes) t, t) := by
    rfl
  have mixes : ((chunkWords bytes).zipIdx.foldl
      (fun words pair => round words pair.2 pair.1) words).toHashValue =
        (List.range 80).foldl (SecureHash.round (Bits.ofBytes bytes))
          words.toHashValue := by
    rw [chunkWords_eq, indexed, List.foldl_map]
    exact (List.foldl_hom Words.toHashValue fun words t =>
      (toHashValue_round (Bits.ofBytes bytes) words t).symm).symm
  rw [compress, ← mixes]
  rfl

/-! ## The digest -/

/-- The hash value of the code. -/
def hash (message : Bytes) : Words :=
  (chunks message).foldl chunk
    ⟨0x67452301, 0xEFCDAB89, 0x98BADCFE, 0x10325476, 0xC3D2E1F0⟩

/-- Hashing the padded message, chunk by chunk. -/
theorem toHashValue_hash {input : Bytes} (short : input.length < 2 ^ 61) :
    (hash (padded input)).toHashValue =
      (List.range ((pad (Bits.ofBytes input)).length / 512)).foldl
        (fun value i => compress value
          (((pad (Bits.ofBytes input)).drop (512 * i)).take 512)) initial := by
  have blocks : (pad (Bits.ofBytes input)).length / 512 = (padded input).length / 64 := by
    rw [← ofBytes_padded short, Bits.length_ofBytes]
    omega
  rw [hash, chunks_eq (length_padded input), List.foldl_map, blocks]
  refine (List.foldl_hom Words.toHashValue fun words i => ?_).symm
  rw [toHashValue_chunk, Bits.ofBytes_take, Bits.ofBytes_drop, ofBytes_padded short,
    ← Nat.mul_assoc]

end Sha1

/-- `sha1_hex` works chunk by chunk. -/
theorem sha1Hex_eq_hash (input : Bytes) :
    sha1Hex input =
      let words := Sha1.hash (Sha1.padded input)
      Sha1.hex words.a ++ Sha1.hex words.b ++ Sha1.hex words.c ++ Sha1.hex words.d ++
        Sha1.hex words.e := by
  rw [Sha1.hash, Sha1.chunks_eq (Sha1.length_padded input), List.foldl_map]
  rfl

/-- Hexadecimal digits of a word after other words. -/
theorem ofList_hexDigits_append {width : ℕ} (digits : ℕ) (high : BitVec width)
    (word : UInt32) :
    String.ofList (Bits.hexDigits (digits + 8) (high ++ word.toBitVec).toNat) =
      String.ofList (Bits.hexDigits digits high.toNat) ++ Sha1.hex word := by
  have isSum : (high ++ word.toBitVec).toNat =
      high.toNat * 16 ^ 8 + word.toBitVec.toNat := by
    rw [BitVec.toNat_append, ← Nat.shiftLeft_add_eq_or_of_lt word.toBitVec.isLt,
      Nat.shiftLeft_eq]
    rfl
  rw [isSum, Bits.hexDigits_add digits 8 high.toNat word.toBitVec.isLt,
    String.ofList_append]
  rfl

/-- The digits of the five words are those of the digest. -/
theorem hex_words (words : Sha1.Words) :
    Sha1.hex words.a ++ Sha1.hex words.b ++ Sha1.hex words.c ++ Sha1.hex words.d ++
        Sha1.hex words.e =
      String.ofList (Bits.hexDigits 40 (words.a.toBitVec ++ words.b.toBitVec ++
        words.c.toBitVec ++ words.d.toBitVec ++ words.e.toBitVec).toNat) := by
  rw [ofList_hexDigits_append 32, ofList_hexDigits_append 24, ofList_hexDigits_append 16,
    ofList_hexDigits_append 8]
  rfl

/-- What the code does for a message: the zeros that its loop appends, the chunks
that it cuts, and the digits of the digest. -/
structure HashesAsStandard (input : Bytes) : Prop where
  pads : Sha1.padded input =
    Sha1.pushZeros (input ++ [0x80]) ++ Sha1.toBeBytes (UInt64.ofNat input.length * 8)
  chunks : ∀ chunk ∈ Sha1.chunks (Sha1.padded input), chunk.length = 64
  hashes : sha1Hex input =
    let words := (Sha1.chunks (Sha1.padded input)).foldl Sha1.chunk
      ⟨0x67452301, 0xEFCDAB89, 0x98BADCFE, 0x10325476, 0xC3D2E1F0⟩
    Sha1.hex words.a ++ Sha1.hex words.b ++ Sha1.hex words.c ++ Sha1.hex words.d ++
      Sha1.hex words.e
  digest : sha1Hex input =
    String.ofList (Bits.hexDigits 40 (SecureHash.sha1 (Bits.ofBytes input)).toNat)

/-- For messages whose length in bits fits into 64 bits `sha1_hex` is SHA-1. -/
theorem sha1Hex_eq_standard {input : Bytes} (short : input.length < 2 ^ 61) :
    HashesAsStandard input := by
  refine ⟨Sha1.padded_eq_pushZeros input, fun chunk => Sha1.length_of_mem_chunks,
    sha1Hex_eq_hash input, ?_⟩
  have isValue := Sha1.toHashValue_hash short
  rw [sha1Hex_eq_hash, SecureHash.sha1, ← isValue]
  exact hex_words _

/-- The digest of the three letters that the standard takes as its first example. -/
theorem sha1Hex_eq_standard_abc : HashesAsStandard (asBytes "abc") :=
  sha1Hex_eq_standard (by decide)

end Cache
end MuonJs
