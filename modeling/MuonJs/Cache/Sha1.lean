import MuonJs.Cache.Bytes

/-!
# Script hashes

Scripts are cached under the SHA-1 digest of their text.
-/

namespace MuonJs
namespace Cache
namespace Sha1

/-- The five words of the digest so far. -/
structure Words where
  a : UInt32
  b : UInt32
  c : UInt32
  d : UInt32
  e : UInt32

/-- `u32::rotate_left`. -/
def rotateLeft (word : UInt32) (count : UInt32) : UInt32 :=
  word <<< count ||| word >>> (32 - count)

/-- `u32::from_be_bytes` of the leading four bytes. -/
def fromBeBytes (bytes : Bytes) : UInt32 :=
  (bytes.take 4).foldl (fun word byte => word * 256 + byte.toUInt32) 0

/-- `u64::to_be_bytes`. -/
def toBeBytes (value : UInt64) : Bytes :=
  (List.range 8).map fun i => (value >>> (UInt64.ofNat (8 * (7 - i)))).toUInt8

/-- The message with its padding and its length in bits. -/
def padded (input : Bytes) : Bytes :=
  input ++ 0x80 :: List.replicate ((119 - input.length % 64) % 64) 0 ++
    toBeBytes (UInt64.ofNat input.length * 8)

/-- The message schedule, `count` words from the last one backwards. -/
def schedule : ℕ → List UInt32 → List UInt32
  | 0, words => words
  | count + 1, words =>
      schedule count
        (rotateLeft (words.getD 2 0 ^^^ words.getD 7 0 ^^^ words.getD 13 0 ^^^
          words.getD 15 0) 1 :: words)

/-- The words of one chunk, first one first. -/
def chunkWords (chunk : Bytes) : List UInt32 :=
  (schedule 64 ((List.range 16).reverse.map fun i =>
    fromBeBytes (chunk.drop (4 * i)))).reverse

/-- One round. -/
def round (words : Words) (i : ℕ) (word : UInt32) : Words :=
  let (f, k) :=
    if i < 20 then
      ((words.b &&& words.c) ||| (~~~words.b &&& words.d), (0x5A827999 : UInt32))
    else if i < 40 then (words.b ^^^ words.c ^^^ words.d, 0x6ED9EBA1)
    else if i < 60 then
      ((words.b &&& words.c) ||| (words.b &&& words.d) ||| (words.c &&& words.d),
        0x8F1BBCDC)
    else (words.b ^^^ words.c ^^^ words.d, 0xCA62C1D6)
  let temp := rotateLeft words.a 5 + f + words.e + k + word
  ⟨temp, words.a, rotateLeft words.b 30, words.c, words.d⟩

/-- One chunk. -/
def chunk (words : Words) (bytes : Bytes) : Words :=
  let rounds := (chunkWords bytes).zipIdx.foldl
    (fun words (word, i) => round words i word) words
  ⟨words.a + rounds.a, words.b + rounds.b, words.c + rounds.c,
    words.d + rounds.d, words.e + rounds.e⟩

/-- Eight lower-case hexadecimal digits. -/
def hex (word : UInt32) : String :=
  String.ofList ((List.range 8).map fun i =>
    Nat.digitChar (word.toNat / 16 ^ (7 - i) % 16))

end Sha1

/-- `sha1_hex`. -/
def sha1Hex (input : Bytes) : String :=
  let message := Sha1.padded input
  let words := (List.range (message.length / 64)).foldl
    (fun words i => Sha1.chunk words ((message.drop (64 * i)).take 64))
    ⟨0x67452301, 0xEFCDAB89, 0x98BADCFE, 0x10325476, 0xC3D2E1F0⟩
  Sha1.hex words.a ++ Sha1.hex words.b ++ Sha1.hex words.c ++ Sha1.hex words.d ++
    Sha1.hex words.e

end Cache
end MuonJs
