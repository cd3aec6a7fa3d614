import Mathlib

/-!
# Finite maps in insertion order

A finite map whose keys are listed in the order in which they were first set.
Setting a present key keeps its place; a removed key that is set again comes
last.
-/

namespace MuonJs

/-- A finite map that remembers the order of its keys. -/
@[ext]
structure OrderedMap (κ ν : Type) where
  entries : List (κ × ν)
  distinct : (entries.map Prod.fst).Nodup

namespace OrderedMap

variable {κ ν : Type} [DecidableEq κ]

/-- The map without keys. -/
def empty : OrderedMap κ ν := ⟨[], List.nodup_nil⟩

/-- The keys, in the order in which they were first set. -/
def keys (map : OrderedMap κ ν) : List κ := map.entries.map Prod.fst

/-- The value of a key. -/
def get (map : OrderedMap κ ν) (key : κ) : Option ν :=
  (map.entries.find? fun entry => entry.1 = key).map Prod.snd

/-- Overwrite the value of a key in place. -/
def overwrite (key : κ) (value : ν) : List (κ × ν) → List (κ × ν)
  | [] => []
  | entry :: rest =>
      if entry.1 = key then (entry.1, value) :: rest
      else entry :: overwrite key value rest

theorem overwrite_keys (key : κ) (value : ν) (entries : List (κ × ν)) :
    (overwrite key value entries).map Prod.fst = entries.map Prod.fst := by
  induction entries with
  | nil => rfl
  | cons entry rest ih =>
      rw [overwrite]
      split
      · rfl
      · rw [List.map_cons, List.map_cons, ih]

theorem get_eq_none_iff (map : OrderedMap κ ν) (key : κ) :
    map.get key = none ↔ key ∉ map.keys := by
  rw [get, Option.map_eq_none_iff, List.find?_eq_none, keys, List.mem_map]
  constructor
  · rintro absent ⟨entry, isEntry, rfl⟩
    exact absent entry isEntry (decide_eq_true rfl)
  · intro absent entry isEntry same
    exact absent ⟨entry, isEntry, of_decide_eq_true same⟩

theorem get_of_mem (map : OrderedMap κ ν) {entry : κ × ν} (isEntry : entry ∈ map.entries) :
    map.get entry.1 = some entry.2 := by
  have distinct := map.distinct
  rw [get]
  generalize map.entries = entries at isEntry distinct
  induction entries with
  | nil => cases isEntry
  | cons first entries ih =>
      rw [List.map_cons, List.nodup_cons] at distinct
      rcases List.mem_cons.mp isEntry with rfl | isOther
      · rw [List.find?_cons_of_pos (by simp)]
        rfl
      · rw [List.find?_cons_of_neg, ih isOther distinct.2]
        intro same
        exact distinct.1 (List.mem_map.mpr ⟨entry, isOther, (of_decide_eq_true same).symm⟩)

/-- Set a key: a present key keeps its place, a new one comes last. -/
def set (map : OrderedMap κ ν) (key : κ) (value : ν) : OrderedMap κ ν :=
  if absent : map.get key = none then
    ⟨map.entries ++ [(key, value)], by
      rw [List.map_append, List.nodup_append]
      refine ⟨map.distinct, List.nodup_singleton _, ?_⟩
      intro other isOther new isNew same
      rw [List.mem_singleton.mp isNew] at same
      subst same
      exact (get_eq_none_iff map _).mp absent isOther⟩
  else ⟨overwrite key value map.entries, by rw [overwrite_keys]; exact map.distinct⟩

/-- Remove a key. -/
def erase (map : OrderedMap κ ν) (key : κ) : OrderedMap κ ν :=
  ⟨map.entries.eraseP fun entry => entry.1 = key,
    map.distinct.sublist (List.eraseP_sublist.map Prod.fst)⟩

theorem entries_set_of_absent
    {map : OrderedMap κ ν} {key : κ} (absent : map.get key = none) (value : ν) :
    (map.set key value).entries = map.entries ++ [(key, value)] := by
  rw [set, dif_pos absent]

theorem entries_set_of_present
    {map : OrderedMap κ ν} {key : κ} (present : map.get key ≠ none) (value : ν) :
    (map.set key value).entries = overwrite key value map.entries := by
  rw [set, dif_neg present]

theorem erase_of_absent {map : OrderedMap κ ν} {key : κ} (absent : map.get key = none) :
    map.erase key = map := by
  refine OrderedMap.ext (List.eraseP_of_forall_not fun entry isEntry same => ?_)
  exact (get_eq_none_iff map key).mp absent
    (List.mem_map.mpr ⟨entry, isEntry, of_decide_eq_true same⟩)

end OrderedMap
end MuonJs
