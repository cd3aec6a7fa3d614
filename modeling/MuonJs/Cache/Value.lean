import MuonJs.Cache.Float

/-!
# Stored values

The value kinds of the store and the entry that pairs a value with its expiry.
A standard hash map or set is modelled as an extensional ordered map or set:
its content is the same, and the iteration order, which the standard library
leaves open, is fixed to ascending key order.

`HashStore` keeps the source's two representations.  Its linear form carries
the proof that the fields are distinct and at most `HASH_LINEAR_THRESHOLD`.
-/

namespace MuonJs
namespace Cache

/-- A finite map from byte strings (`HashMap<Vec<u8>, α>`). -/
abbrev ByteMap (α : Type) := Std.ExtTreeMap Bytes α compare

/-- A finite set of byte strings (`HashSet<Arc<[u8]>>`). -/
abbrev ByteSet := Std.ExtTreeSet Bytes compare

namespace ByteMap

/-- Looking a key up after an insertion. -/
theorem lookup_insert
    (map : ByteMap α) (key probe : Bytes) (value : α) :
    (map.insert key value)[probe]? =
      if key = probe then some value else map[probe]? := by
  rw [Std.ExtTreeMap.getElem?_insert]
  simp only [Std.LawfulEqCmp.compare_eq_iff_eq]

/-- Looking a key up after a removal. -/
theorem lookup_erase
    (map : ByteMap α) (key probe : Bytes) :
    (map.erase key)[probe]? =
      if key = probe then none else map[probe]? := by
  rw [Std.ExtTreeMap.getElem?_erase]
  simp only [Std.LawfulEqCmp.compare_eq_iff_eq]

/-- Looking a key up after filtering on the values. -/
theorem lookup_filter
    (map : ByteMap α) (keep : α → Bool) (probe : Bytes) :
    (map.filter fun _ value => keep value)[probe]? =
      map[probe]?.filter keep := by
  rw [Std.ExtTreeMap.getElem?_filter]
  exact Option.pfilter_eq_filter

end ByteMap

/-- Fields a linear hash may hold before it becomes a map. -/
def hashLinearThreshold : Nat := 8

/-- Compact hash storage: pairs for small hashes, a map for large ones. -/
inductive HashStore
  | linear
      (fields : List (Bytes × Bytes))
      (distinct : (fields.map Prod.fst).Nodup)
      (small : fields.length ≤ hashLinearThreshold)
  | map (fields : ByteMap Bytes)

namespace HashStore

/-- `HashStore::with_single`. -/
def withSingle (field value : Bytes) : HashStore :=
  .linear [(field, value)] (by simp) (by simp [hashLinearThreshold])

/-- First pair with the field, as `iter().find` returns it. -/
def findField (fields : List (Bytes × Bytes)) (field : Bytes) : Option Bytes :=
  (fields.find? fun pair => pair.1 == field).map Prod.snd

/-- `HashStore::get`. -/
def get (store : HashStore) (field : Bytes) : Option Bytes :=
  match store with
  | .linear fields _ _ => findField fields field
  | .map fields => fields[field]?

/-- `HashStore::contains_key`. -/
def containsKey (store : HashStore) (field : Bytes) : Bool :=
  match store with
  | .linear fields _ _ => fields.any fun pair => pair.1 == field
  | .map fields => fields.contains field

/-- `HashStore::len`. -/
def len (store : HashStore) : Nat :=
  match store with
  | .linear fields _ _ => fields.length
  | .map fields => fields.size

/-- Overwrite the value of the field in place, where it occurs. -/
def replaceField (fields : List (Bytes × Bytes)) (field value : Bytes) :
    List (Bytes × Bytes) :=
  fields.map fun pair => if pair.1 = field then (pair.1, value) else pair

@[simp] theorem replaceField_fst
    (fields : List (Bytes × Bytes)) (field value : Bytes) :
    (replaceField fields field value).map Prod.fst = fields.map Prod.fst := by
  rw [replaceField, List.map_map]
  apply List.map_congr_left
  intro pair _
  by_cases same : pair.1 = field <;> simp [same]

@[simp] theorem replaceField_length
    (fields : List (Bytes × Bytes)) (field value : Bytes) :
    (replaceField fields field value).length = fields.length := by
  simp [replaceField]

/-- The map a full linear store is promoted to. -/
def promote (fields : List (Bytes × Bytes)) : ByteMap Bytes :=
  fields.foldl (fun map pair => map.insert pair.1 pair.2) ∅

/-- `HashStore::insert`: the old value, if the field was there, and the new
store.  The ninth field turns a linear store into a map. -/
def insert (store : HashStore) (field value : Bytes) :
    Option Bytes × HashStore :=
  match store with
  | .linear fields distinct small =>
      if present : field ∈ fields.map Prod.fst then
        (findField fields field,
          .linear (replaceField fields field value)
            (by simpa using distinct) (by simpa using small))
      else if room : fields.length < hashLinearThreshold then
        (none, .linear (fields ++ [(field, value)])
          (by
            rw [List.map_append, List.nodup_append]
            refine ⟨distinct, by simp, ?_⟩
            intro other otherMem new newMem equal
            simp only [List.map_cons, List.map_nil, List.mem_singleton]
              at newMem
            exact present (by rw [← newMem, ← equal]; exact otherMem))
          (by simpa using room))
      else (none, .map ((promote fields).insert field value))
  | .map fields => (fields[field]?, .map (fields.insert field value))

/-- Overwrite a present field through `HashStore::get_mut`. -/
def setMut (store : HashStore) (field value : Bytes) : HashStore :=
  match store with
  | .linear fields distinct small =>
      .linear (replaceField fields field value)
        (by simpa using distinct) (by simpa using small)
  | .map fields => .map (fields.insert field value)

/-- `Vec::swap_remove` at the position of the field: the last pair takes the
place of the removed one. -/
def swapRemove : List (Bytes × Bytes) → Bytes → List (Bytes × Bytes)
  | [], _ => []
  | pair :: rest, field =>
      if pair.1 = field then
        match rest.getLast? with
        | none => []
        | some last => last :: rest.dropLast
      else pair :: swapRemove rest field

/-- Swapping the last pair to the front permutes the pairs. -/
theorem getLast_cons_dropLast_perm
    (rest : List (Bytes × Bytes)) (last : Bytes × Bytes)
    (isLast : rest.getLast? = some last) :
    (last :: rest.dropLast).Perm rest := by
  obtain ⟨front, rfl⟩ := List.getLast?_eq_some_iff.mp isLast
  simpa using (List.perm_append_singleton last front).symm

/-- Removal drops exactly the first pair with the field, up to order. -/
theorem swapRemove_perm (fields : List (Bytes × Bytes)) (field : Bytes) :
    (swapRemove fields field).Perm
      (fields.eraseP fun pair => pair.1 = field) := by
  induction fields with
  | nil => rfl
  | cons pair rest ih =>
      by_cases same : pair.1 = field
      · simp only [swapRemove, same, if_true]
        rw [List.eraseP_cons_of_pos (by simpa using same)]
        cases isLast : rest.getLast? with
        | none =>
            rw [List.getLast?_eq_none_iff] at isLast
            rw [isLast]
        | some last => exact getLast_cons_dropLast_perm rest last isLast
      · simp only [swapRemove, same, if_false]
        rw [List.eraseP_cons_of_neg (by simpa using same)]
        exact ih.cons pair

theorem swapRemove_distinct
    {fields : List (Bytes × Bytes)}
    (distinct : (fields.map Prod.fst).Nodup)
    (field : Bytes) :
    ((swapRemove fields field).map Prod.fst).Nodup := by
  rw [((swapRemove_perm fields field).map Prod.fst).nodup_iff]
  exact distinct.sublist ((List.eraseP_sublist).map Prod.fst)

theorem swapRemove_length_le
    (fields : List (Bytes × Bytes)) (field : Bytes) :
    (swapRemove fields field).length ≤ fields.length := by
  rw [(swapRemove_perm fields field).length_eq]
  exact List.eraseP_sublist.length_le

/-- `HashStore::remove`: the removed value and the store without the field. -/
def remove (store : HashStore) (field : Bytes) : Option Bytes × HashStore :=
  match store with
  | .linear fields distinct small =>
      (findField fields field,
        .linear (swapRemove fields field)
          (swapRemove_distinct distinct field)
          ((swapRemove_length_le fields field).trans small))
  | .map fields => (fields[field]?, .map (fields.erase field))

/-- `HashStore::iter`, in iteration order. -/
def iter (store : HashStore) : List (Bytes × Bytes) :=
  match store with
  | .linear fields _ _ => fields
  | .map fields => fields.toList

/-- A field occurs once in a list of pairs with its first value. -/
theorem findField_eq_some_iff
    {fields : List (Bytes × Bytes)}
    (distinct : (fields.map Prod.fst).Nodup) (field value : Bytes) :
    findField fields field = some value ↔ (field, value) ∈ fields := by
  unfold findField
  rw [Option.map_eq_some_iff]
  constructor
  · rintro ⟨pair, found, rfl⟩
    have sameField : pair.1 = field := by simpa using List.find?_some found
    rw [← sameField]
    exact List.mem_of_find?_eq_some found
  · intro present
    cases found : fields.find? fun pair => pair.1 == field with
    | none =>
        have absent := List.find?_eq_none.mp found _ present
        simp at absent
    | some pair =>
        have sameField : pair.1 = field := by simpa using List.find?_some found
        have samePair := List.inj_on_of_nodup_map distinct
          (List.mem_of_find?_eq_some found) present sameField
        exact ⟨pair, rfl, by rw [samePair]⟩

/-- Iteration yields the stored pairs. -/
theorem mem_iter (store : HashStore) (field value : Bytes) :
    (field, value) ∈ store.iter ↔ store.get field = some value := by
  cases store with
  | linear fields distinct small =>
      exact (findField_eq_some_iff distinct field value).symm
  | map fields => exact Std.ExtTreeMap.mem_toList_iff_getElem?_eq_some

/-- Iteration yields every field once. -/
theorem iter_distinct (store : HashStore) :
    (store.iter.map Prod.fst).Nodup := by
  cases store with
  | linear fields distinct small => exact distinct
  | map fields =>
      rw [iter, Std.ExtTreeMap.map_fst_toList_eq_keys]
      exact Std.ExtTreeMap.nodup_keys

end HashStore

/-- One stream entry: its ID and its field-value pairs. -/
abbrev StreamEntry := String × List (Bytes × Bytes)

/-- A stored value. -/
inductive Value
  | string (bytes : Bytes)
  | int (n : Int64)
  | list (items : List Bytes)
  | set (items : ByteSet)
  | hash (fields : HashStore)
  | zset (items : ByteMap F64)
  | stream (items : List StreamEntry)

/-- A value with its optional expiry timestamp in milliseconds. -/
structure Entry where
  value : Value
  expiresAt : Option UInt64

namespace Entry

/-- An entry is expired when its timestamp is not after the clock. -/
def expired (now : UInt64) (entry : Entry) : Bool :=
  match entry.expiresAt with
  | some ts => ts ≤ now
  | none => false

/-- An entry is live when it is not expired. -/
def live (now : UInt64) (entry : Entry) : Bool := !entry.expired now

/-- Replace the value and keep the expiry. -/
def withValue (entry : Entry) (value : Value) : Entry :=
  { entry with value := value }

@[simp] theorem live_of_persistent (value : Value) (now : UInt64) :
    Entry.live now ⟨value, none⟩ = true := rfl

/-- An expired entry stays expired. -/
theorem expired_mono
    {entry : Entry} {now later : UInt64}
    (isExpired : entry.expired now = true)
    (after : now ≤ later) :
    entry.expired later = true := by
  unfold expired at isExpired ⊢
  cases expiry : entry.expiresAt with
  | none => simp [expiry] at isExpired
  | some ts =>
      simp only [expiry, decide_eq_true_eq] at isExpired ⊢
      exact UInt64.le_trans isExpired after

end Entry

end Cache
end MuonJs
