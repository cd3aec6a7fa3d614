import MuonJs.Lib.Blocks

/-!
# Buffers of words

Words of eight bytes by their address, and buffers of such words that are accessed through
checked indices.  A loop over a range of indices writes that range and nothing else, and
what a buffer holds is the list of its first words.
-/

namespace MuonJs
namespace WordBuffers

open Blocks

variable {α : Type*}

/-- A start, and how many words there is room for. -/
structure Buffer where
  start : ℕ
  cap : ℕ

namespace Buffer

/-- The memory of a buffer. -/
def block (buffer : Buffer) : Block := ⟨buffer.start, 8 * buffer.cap⟩

/-- The address of a word. -/
def place (buffer : Buffer) (index : ℕ) : ℕ := buffer.start + 8 * index

theorem place_inj (buffer : Buffer) {left right : ℕ} :
    buffer.place left = buffer.place right ↔ left = right := by
  unfold place
  omega

/-- Words of buffers that are apart have different addresses. -/
theorem place_ne {left right : Buffer} (apart : left.block.Apart right.block) {index other : ℕ}
    (inLeft : index < left.cap) (inRight : other < right.cap) :
    left.place index ≠ right.place other := by
  unfold block Block.Apart at apart
  dsimp only at apart
  unfold place
  omega

/-! ## Accesses -/

/-- A word; none outside the buffer. -/
def read (buffer : Buffer) (words : ℕ → α) (index : ℕ) : Option α :=
  if index < buffer.cap then some (words (buffer.place index)) else none

/-- Write a word; none outside the buffer. -/
def write (buffer : Buffer) (words : ℕ → α) (index : ℕ) (value : α) : Option (ℕ → α) :=
  if index < buffer.cap then some (Function.update words (buffer.place index) value) else none

/-- Write one value to so many indices from one on. -/
def fill (buffer : Buffer) (value : α) : ℕ → ℕ → (ℕ → α) → Option (ℕ → α)
  | _, 0, words => some words
  | index, count + 1, words =>
      (buffer.write words index value).bind (buffer.fill value (index + 1) count)

/-- Copy so many words from one index on to the same indices of another buffer. -/
def copy (source target : Buffer) : ℕ → ℕ → (ℕ → α) → Option (ℕ → α)
  | _, 0, words => some words
  | index, count + 1, words =>
      (source.read words index).bind fun value =>
        (target.write words index value).bind (source.copy target (index + 1) count)

/-- So many indices from `low` on have been written, with the given values, and nothing
else has. -/
structure Wrote (buffer : Buffer) (low count : ℕ) (values : ℕ → α) (words after : ℕ → α) :
    Prop where
  inside : ∀ index, low ≤ index → index < low + count →
    after (buffer.place index) = values index
  outside : ∀ address, (∀ index, low ≤ index → index < low + count →
    address ≠ buffer.place index) → after address = words address

namespace Wrote

variable {buffer : Buffer} {low count : ℕ} {values : ℕ → α} {words after : ℕ → α}

theorem zero (buffer : Buffer) (low : ℕ) (values words : ℕ → α) :
    Wrote buffer low 0 values words words where
  inside := by omega
  outside := fun _ _ => rfl

/-- One word more at the front. -/
theorem cons
    (rest : Wrote buffer (low + 1) count values
      (Function.update words (buffer.place low) (values low)) after) :
    Wrote buffer low (count + 1) values words after where
  inside := by
    intro index isFrom isBelow
    rcases isFrom.eq_or_lt with rfl | isLater
    · rw [rest.outside (buffer.place low), Function.update_self]
      intro other isLater _ same
      rw [place_inj] at same
      omega
    · exact rest.inside index isLater (by omega)
  outside := by
    intro address isElsewhere
    rw [rest.outside address, Function.update_of_ne]
    · exact isElsewhere low (Nat.le_refl low) (by omega)
    · exact fun index isFrom isBelow => isElsewhere index (by omega) (by omega)

/-- The values matter on the written indices alone. -/
theorem congr (wrote : Wrote buffer low count values words after) {others : ℕ → α}
    (same : ∀ index, low ≤ index → index < low + count → values index = others index) :
    Wrote buffer low count others words after where
  inside := fun index isFrom isBelow =>
    (wrote.inside index isFrom isBelow).trans (same index isFrom isBelow)
  outside := wrote.outside

theorem update (buffer : Buffer) (index : ℕ) (words : ℕ → α) (value : α) :
    Wrote buffer index 1 (fun _ => value) words
      (Function.update words (buffer.place index) value) :=
  cons (zero buffer (index + 1) (fun _ => value) _)

/-- What lies outside the buffer stays. -/
theorem eq_of_outside (wrote : Wrote buffer low count values words after)
    (inBuffer : low + count ≤ buffer.cap) {address : ℕ}
    (outside : address < buffer.start ∨ buffer.start + 8 * buffer.cap ≤ address) :
    after address = words address := by
  refine wrote.outside address fun index isFrom isBelow => ?_
  unfold place
  omega

end Wrote

theorem write_eq_some {buffer : Buffer} {index : ℕ} (inBuffer : index < buffer.cap)
    (words : ℕ → α) (value : α) :
    ∃ after, buffer.write words index value = some after ∧
      Wrote buffer index 1 (fun _ => value) words after :=
  ⟨_, if_pos inBuffer, Wrote.update buffer index words value⟩

/-- A loop that fills a part of the buffer makes no access outside. -/
theorem fill_eq_some {buffer : Buffer} {low count : ℕ} (inBuffer : low + count ≤ buffer.cap)
    (value : α) (words : ℕ → α) :
    ∃ after, buffer.fill value low count words = some after ∧
      Wrote buffer low count (fun _ => value) words after := by
  induction count generalizing low words with
  | zero => exact ⟨words, rfl, Wrote.zero buffer low _ words⟩
  | succ count ih =>
      have isFirst : low < buffer.cap := by omega
      have inRest : low + 1 + count ≤ buffer.cap := by omega
      obtain ⟨after, filled, wrote⟩ := ih inRest
        (Function.update words (buffer.place low) value)
      refine ⟨after, ?_, wrote.cons⟩
      rw [fill, write, if_pos isFirst, Option.bind_some]
      exact filled

/-- A loop that copies between buffers that are apart makes no access outside, and reads
what was there before. -/
theorem copy_eq_some {source target : Buffer} (apart : source.block.Apart target.block)
    {low count : ℕ} (inSource : low + count ≤ source.cap) (inTarget : low + count ≤ target.cap)
    (words : ℕ → α) :
    ∃ after, source.copy target low count words = some after ∧
      Wrote target low count (fun index => words (source.place index)) words after := by
  induction count generalizing low words with
  | zero => exact ⟨words, rfl, Wrote.zero target low _ words⟩
  | succ count ih =>
      have isRead : low < source.cap := by omega
      have isWritten : low < target.cap := by omega
      have restSource : low + 1 + count ≤ source.cap := by omega
      have restTarget : low + 1 + count ≤ target.cap := by omega
      obtain ⟨after, copied, wrote⟩ := ih restSource restTarget
        (Function.update words (target.place low) (words (source.place low)))
      refine ⟨after, ?_, Wrote.cons (wrote.congr ?_)⟩
      · rw [copy, read, if_pos isRead, Option.bind_some, write, if_pos isWritten,
          Option.bind_some]
        exact copied
      · intro index isFrom isBelow
        have isSource : index < source.cap := by omega
        rw [Function.update_of_ne (place_ne apart isSource isWritten)]

/-! ## Contents -/

/-- The first words of a buffer. -/
def contents (buffer : Buffer) (words : ℕ → α) (length : ℕ) : List α :=
  (List.range length).map fun index => words (buffer.place index)

variable {buffer : Buffer} {words after : ℕ → α}

@[simp] theorem length_contents (buffer : Buffer) (words : ℕ → α) (length : ℕ) :
    (buffer.contents words length).length = length := by
  rw [contents, List.length_map, List.length_range]

theorem getElem?_contents {length index : ℕ} (inRange : index < length) :
    (buffer.contents words length)[index]? = some (words (buffer.place index)) := by
  rw [contents, List.getElem?_map, List.getElem?_range inRange, Option.map_some]

theorem contents_congr {other : Buffer} {length : ℕ}
    (same : ∀ index < length, after (other.place index) = words (buffer.place index)) :
    other.contents after length = buffer.contents words length :=
  List.map_congr_left fun index inRange => same index (List.mem_range.mp inRange)

theorem contents_add (buffer : Buffer) (words : ℕ → α) (length count : ℕ) :
    buffer.contents words (length + count) = buffer.contents words length ++
      (List.range count).map fun index => words (buffer.place (length + index)) := by
  rw [contents, List.range_add, List.map_append, List.map_map]
  rfl

theorem take_contents {length shorter : ℕ} (isShorter : shorter ≤ length) :
    (buffer.contents words length).take shorter = buffer.contents words shorter := by
  obtain ⟨count, rfl⟩ := Nat.exists_eq_add_of_le isShorter
  rw [contents_add, List.take_left' (length_contents buffer words shorter)]

namespace Wrote

variable {low count : ℕ} {values : ℕ → α}

/-- What is written behind the contents does not change them. -/
theorem contents_eq (wrote : Wrote buffer low count values words after) {length : ℕ}
    (isBehind : length ≤ low) :
    buffer.contents after length = buffer.contents words length := by
  refine contents_congr fun index inRange => wrote.outside _ fun other isFrom _ same => ?_
  rw [place_inj] at same
  omega

/-- What is written right behind the contents is appended. -/
theorem contents_append {value : α}
    (wrote : Wrote buffer low count (fun _ => value) words after) :
    buffer.contents after (low + count) =
      buffer.contents words low ++ List.replicate count value := by
  rw [contents_add, wrote.contents_eq (Nat.le_refl low), List.append_cancel_left_eq,
    List.eq_replicate_iff, List.length_map, List.length_range]
  refine ⟨rfl, fun word isWord => ?_⟩
  obtain ⟨index, inRange, rfl⟩ := List.mem_map.mp isWord
  have isBelow := List.mem_range.mp inRange
  exact wrote.inside _ (by omega) (by omega)

/-- What is written at one index of the contents replaces it. -/
theorem contents_set {index length : ℕ} {value : α}
    (wrote : Wrote buffer index 1 (fun _ => value) words after) :
    buffer.contents after length = (buffer.contents words length).set index value := by
  refine List.ext_getElem? fun other => ?_
  rw [List.getElem?_set, length_contents]
  by_cases inRange : other < length
  · rw [getElem?_contents inRange, getElem?_contents inRange]
    split
    · rename_i isIndex
      rw [if_pos (isIndex ▸ inRange), ← isIndex,
        wrote.inside index (Nat.le_refl index) (Nat.lt_succ_self index)]
    · rename_i isOther
      rw [wrote.outside]
      intro written isFrom isBelow same
      rw [place_inj] at same
      omega
  · have isNone : ∀ memory : ℕ → α, (buffer.contents memory length)[other]? = none :=
      fun memory => List.getElem?_eq_none (by rw [length_contents]; omega)
    rw [isNone, isNone]
    split
    · rw [if_neg (by omega)]
    · rfl

end Wrote

end Buffer

end WordBuffers
end MuonJs
