import Mathlib

/-!
# Relational tables with a primary key

A table is a list of rows with distinct primary keys, in the unspecified order
in which a scan returns them.  An insertion fails on a key that is present; a
replacement drops the row with the same key first.

Where the key consists of an owner and a part, `Table.part` is what one owner
holds.  Writes for one owner do not touch the part of another.
-/

namespace MuonJs

/-- Rows with distinct primary keys. -/
structure Table (Key Row : Type) where
  rows : List (Key × Row)
  distinct : (rows.map Prod.fst).Nodup

namespace Table

section Keys

variable {Key Row : Type} [DecidableEq Key]

/-- The table without rows. -/
def empty : Table Key Row := ⟨[], List.nodup_nil⟩

/-- The row with a key. -/
def find (table : Table Key Row) (key : Key) : Option Row :=
  (table.rows.find? fun row => row.1 = key).map Prod.snd

/-- Delete the rows whose key satisfies a condition. -/
def delete (table : Table Key Row) (gone : Key → Bool) : Table Key Row where
  rows := table.rows.filter fun row => !gone row.1
  distinct := table.distinct.sublist (List.filter_sublist.map Prod.fst)

/-- Insert a row; fails when its key is present. -/
def insert (table : Table Key Row) (key : Key) (row : Row) :
    Option (Table Key Row) :=
  if absent : key ∉ table.rows.map Prod.fst then
    some {
      rows := table.rows ++ [(key, row)]
      distinct := by
        rw [List.map_append]
        exact List.nodup_append.mpr ⟨table.distinct, List.nodup_singleton _,
          fun first firstMem second secondMem same => absent (by
            rw [List.mem_singleton.mp secondMem] at same
            rwa [same] at firstMem)⟩ }
  else none

/-- Insert a row in place of the row with the same key. -/
def replace (table : Table Key Row) (key : Key) (row : Row) : Table Key Row where
  rows := (table.delete fun other => other = key).rows ++ [(key, row)]
  distinct := by
    rw [List.map_append]
    refine List.nodup_append.mpr ⟨(table.delete _).distinct,
      List.nodup_singleton _, ?_⟩
    intro first firstMem second secondMem same
    obtain ⟨⟨firstKey, firstRow⟩, kept, rfl⟩ := List.mem_map.mp firstMem
    have notGone := (List.mem_filter.mp kept).2
    rw [List.mem_singleton.mp secondMem] at same
    simp at notGone
    exact notGone same

/-- The keys with their rows are those that can be found. -/
theorem mem_rows_iff (table : Table Key Row) (key : Key) (row : Row) :
    (key, row) ∈ table.rows ↔ table.find key = some row := by
  unfold find
  rw [Option.map_eq_some_iff]
  constructor
  · intro present
    cases found : table.rows.find? fun other => other.1 = key with
    | none =>
        have absent := List.find?_eq_none.mp found (key, row) present
        simp at absent
    | some other =>
        have sameKey : other.1 = key := by simpa using List.find?_some found
        have samePair := List.inj_on_of_nodup_map table.distinct
          (List.mem_of_find?_eq_some found) present sameKey
        exact ⟨other, rfl, by rw [samePair]⟩
  · rintro ⟨other, found, rfl⟩
    have sameKey : other.1 = key := by simpa using List.find?_some found
    rw [← sameKey]
    exact List.mem_of_find?_eq_some found

theorem find_eq_none_iff (table : Table Key Row) (key : Key) :
    table.find key = none ↔ key ∉ table.rows.map Prod.fst := by
  rw [Option.eq_none_iff_forall_ne_some]
  simp only [ne_eq, ← mem_rows_iff, List.mem_map, Prod.exists, exists_and_right,
    exists_eq_right, not_exists]

theorem find_delete (table : Table Key Row) (gone : Key → Bool) (key : Key) :
    (table.delete gone).find key = if gone key then none else table.find key := by
  apply Option.ext
  intro row
  rw [← mem_rows_iff]
  unfold delete
  rw [List.mem_filter, mem_rows_iff]
  cases gone key <;> simp

theorem find_replace
    (table : Table Key Row) (key probe : Key) (row : Row) :
    (table.replace key row).find probe =
      if key = probe then some row else table.find probe := by
  apply Option.ext
  intro found
  rw [← mem_rows_iff]
  unfold replace
  rw [List.mem_append, mem_rows_iff, find_delete, List.mem_singleton]
  by_cases same : key = probe
  · simp [same, eq_comm]
  · simp [same, Ne.symm same]

/-- Insertion succeeds exactly when the key is absent. -/
theorem insert_isSome (table : Table Key Row) (key : Key) (row : Row) :
    (table.insert key row).isSome ↔ key ∉ table.rows.map Prod.fst := by
  unfold insert
  split <;> simp_all

theorem rows_of_insert
    {table after : Table Key Row} {key : Key} {row : Row}
    (inserted : table.insert key row = some after) :
    after.rows = table.rows ++ [(key, row)] := by
  unfold insert at inserted
  split at inserted
  · cases inserted
    rfl
  · cases inserted

end Keys

section Owners

variable {Owner Item Row : Type} [DecidableEq Owner]

/-- What one owner holds, in scan order. -/
def part (table : Table (Owner × Item) Row) (owner : Owner) : List (Item × Row) :=
  table.rows.filterMap fun row =>
    if row.1.1 = owner then some (row.1.2, row.2) else none

/-- Delete everything an owner holds. -/
def deleteOwner (table : Table (Owner × Item) Row) (owner : Owner) :
    Table (Owner × Item) Row :=
  table.delete fun key => key.1 = owner

theorem mem_part_iff
    (table : Table (Owner × Item) Row) (owner : Owner) (item : Item) (row : Row) :
    (item, row) ∈ table.part owner ↔ ((owner, item), row) ∈ table.rows := by
  unfold part
  rw [List.mem_filterMap]
  constructor
  · rintro ⟨⟨⟨rowOwner, rowItem⟩, rowRow⟩, present, selected⟩
    split at selected
    · rename_i own
      cases selected
      cases own
      exact present
    · cases selected
  · intro present
    exact ⟨_, present, if_pos rfl⟩

theorem part_deleteOwner
    (table : Table (Owner × Item) Row) (owner probe : Owner) :
    (table.deleteOwner owner).part probe =
      if owner = probe then [] else table.part probe := by
  unfold part deleteOwner delete
  rw [List.filterMap_filter]
  by_cases same : owner = probe
  · rw [if_pos same, List.filterMap_eq_nil_iff]
    intro row _
    simp only [same]
    split <;> simp_all
  · rw [if_neg same]
    apply List.filterMap_congr
    intro row _
    by_cases own : row.1.1 = probe
    · simp [own, Ne.symm same]
    · simp [own]

variable [DecidableEq Item]

theorem part_of_insert
    {table after : Table (Owner × Item) Row}
    {owner : Owner} {item : Item} {row : Row}
    (inserted : table.insert (owner, item) row = some after)
    (probe : Owner) :
    after.part probe =
      if owner = probe then table.part probe ++ [(item, row)]
      else table.part probe := by
  unfold part
  rw [rows_of_insert inserted, List.filterMap_append]
  by_cases same : owner = probe <;> simp [same]

/-- Whether an insertion succeeds depends on the owner's part alone. -/
theorem insert_isSome_iff_part
    (table : Table (Owner × Item) Row)
    (owner : Owner) (item : Item) (row : Row) :
    (table.insert (owner, item) row).isSome ↔
      item ∉ (table.part owner).map Prod.fst := by
  rw [insert_isSome]
  apply not_congr
  rw [List.mem_map, List.mem_map]
  constructor
  · rintro ⟨⟨key, rowRow⟩, present, rfl⟩
    exact ⟨(item, rowRow), (mem_part_iff table owner item rowRow).mpr present, rfl⟩
  · rintro ⟨⟨partItem, rowRow⟩, present, rfl⟩
    exact ⟨((owner, partItem), rowRow),
      (mem_part_iff table owner partItem rowRow).mp present, rfl⟩

/-- Append an item unless it is present. -/
def appendItem (items : List (Item × Row)) (item : Item) (row : Row) :
    Option (List (Item × Row)) :=
  if item ∈ items.map Prod.fst then none else some (items ++ [(item, row)])

/-- Inserting a row acts on the owner's part as on a list, and leaves the parts
of other owners alone. -/
theorem insert_part
    (table : Table (Owner × Item) Row)
    (owner : Owner) (item : Item) (row : Row) :
    ((table.insert (owner, item) row).map fun after => after.part owner) =
        appendItem (table.part owner) item row ∧
      ∀ after, table.insert (owner, item) row = some after →
        ∀ probe, owner ≠ probe → after.part probe = table.part probe := by
  refine ⟨?_, fun after inserted probe other => ?_⟩
  · unfold appendItem
    have succeeds := table.insert_isSome_iff_part owner item row
    cases inserted : table.insert (owner, item) row with
    | none =>
        rw [inserted] at succeeds
        simp only [Option.isSome_none, Bool.false_eq_true, false_iff,
          not_not] at succeeds
        rw [if_pos succeeds, Option.map_none]
    | some after =>
        rw [inserted] at succeeds
        simp only [Option.isSome_some, true_iff] at succeeds
        rw [if_neg succeeds, Option.map_some, part_of_insert inserted, if_pos rfl]
  · rw [part_of_insert inserted, if_neg other]

/-- Append the items one after the other; fails at the first that is present. -/
def appendItems (items new : List (Item × Row)) : Option (List (Item × Row)) :=
  new.foldlM (fun items pair => appendItem items pair.1 pair.2) items

/-- Appending succeeds exactly when no item is repeated. -/
theorem appendItems_eq
    (items new : List (Item × Row))
    (distinct : (items.map Prod.fst).Nodup) :
    appendItems items new =
      if ((items ++ new).map Prod.fst).Nodup then some (items ++ new) else none := by
  unfold appendItems
  induction new generalizing items with
  | nil => simp [distinct]
  | cons pair new ih =>
      rw [List.foldlM_cons]
      by_cases present : pair.1 ∈ items.map Prod.fst
      · have repeated : ¬((items ++ pair :: new).map Prod.fst).Nodup := by
          rw [List.map_append, List.nodup_append]
          rintro ⟨-, -, disjoint⟩
          exact disjoint _ present _ (by simp) rfl
        rw [appendItem, if_pos present, if_neg repeated]
        rfl
      · have stillDistinct : ((items ++ [pair]).map Prod.fst).Nodup := by
          rw [List.map_append, List.nodup_append]
          refine ⟨distinct, List.nodup_singleton _, ?_⟩
          rintro first firstMem second secondMem rfl
          exact present (List.mem_singleton.mp secondMem ▸ firstMem)
        have appended := ih (items ++ [pair]) stillDistinct
        rw [List.append_assoc, List.singleton_append] at appended
        rw [appendItem, if_neg present]
        exact appended

end Owners

end Table
end MuonJs
