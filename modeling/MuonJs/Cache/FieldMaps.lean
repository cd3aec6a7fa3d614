import MuonJs.Cache.Counters
import MuonJs.Cache.WritePaths

/-!
# Hashes as finite maps

A `HashStore` is a list of pairs while it is small and a map once it has held nine
fields.  Every run of its operations gives the answers of a finite map from fields to
values, whatever form it has; `keys` and `iter` list every binding once, in an order that
is left open for the map.
-/

namespace MuonJs
namespace Cache
namespace FieldMaps

/-- The finite maps that hashes stand for. -/
abbrev FieldMap := Finmap fun _ : Bytes => Bytes

/-- An order in which a standard hash map is walked. -/
structure IterationOrder where
  /-- The pairs in this order. -/
  arrange : List (Bytes × Bytes) → List (Bytes × Bytes)
  /-- Every pair occurs as often as before. -/
  isPerm : ∀ pairs, (arrange pairs).Perm pairs

/-- The operations; those that list the hash come with the order in which a map is walked. -/
inductive Op
  | insert (field value : Bytes)
  | remove (field : Bytes)
  | write (field value : Bytes)
  | get (field : Bytes)
  | containsKey (field : Bytes)
  | len
  | keys (order : IterationOrder)
  | iter (order : IterationOrder)

/-- What an operation returns. -/
inductive Answer
  | value (old : Option Bytes)
  | flag (present : Bool)
  | count (fields : ℕ)
  | fields (names : List Bytes)
  | pairs (bindings : List (Bytes × Bytes))

/-! ## The code -/

/-- `HashStore::iter`. -/
def iterIn (order : IterationOrder) : HashStore → List (Bytes × Bytes)
  | .linear fields _ _ => fields
  | .map fields => order.arrange fields.toList

/-- `HashStore::keys`. -/
def keysIn (order : IterationOrder) (store : HashStore) : List Bytes :=
  (iterIn order store).map Prod.fst

/-- A write through `HashStore::get_mut`, and what stood there. -/
def writeMut (store : HashStore) (field value : Bytes) : Option Bytes × HashStore :=
  match store.get field with
  | none => (none, store)
  | some old => (some old, store.setMut field value)

/-- One operation on a store. -/
def step (store : HashStore) : Op → Answer × HashStore
  | .insert field value => ((.value (store.insert field value).1), (store.insert field value).2)
  | .remove field => ((.value (store.remove field).1), (store.remove field).2)
  | .write field value => ((.value (writeMut store field value).1), (writeMut store field value).2)
  | .get field => (.value (store.get field), store)
  | .containsKey field => (.flag (store.containsKey field), store)
  | .len => (.count store.len, store)
  | .keys order => (.fields (keysIn order store), store)
  | .iter order => (.pairs (iterIn order store), store)

/-- Operations one after the other. -/
def run : List Op → HashStore → List Answer × HashStore
  | [], store => ([], store)
  | op :: ops, store =>
      ((step store op).1 :: (run ops (step store op).2).1, (run ops (step store op).2).2)

/-! ## Finite maps -/

/-- The answers of a finite map to an operation. -/
def Answers (map : FieldMap) (answer : Answer) : Op → Prop
  | .insert field _ | .remove field | .write field _ | .get field =>
      answer = .value (map.lookup field)
  | .containsKey field => answer = .flag (map.lookup field).isSome
  | .len => answer = .count map.keys.card
  | .keys _ => ∃ names, answer = .fields names ∧ names.Nodup ∧ ∀ field, field ∈ names ↔ field ∈ map
  | .iter _ => ∃ bindings, answer = .pairs bindings ∧ (bindings.map Prod.fst).Nodup ∧
      ∀ field value, (field, value) ∈ bindings ↔ map.lookup field = some value

/-- The finite map after an operation. -/
def after (map : FieldMap) : Op → FieldMap
  | .insert field value => map.insert field value
  | .remove field => map.erase field
  | .write field value => if field ∈ map then map.insert field value else map
  | _ => map

/-- The answers of a finite map to operations, and the map behind them. -/
def Runs : List Op → FieldMap → List Answer → FieldMap → Prop
  | [], map, answers, last => answers = [] ∧ last = map
  | op :: ops, map, answers, last =>
      ∃ answer rest, answers = answer :: rest ∧ Answers map answer op ∧
        Runs ops (after map op) rest last

/-- A store stands for a map. -/
def Represents (store : HashStore) (map : FieldMap) : Prop :=
  ∀ field, store.get field = map.lookup field

/-! ## The linear form -/

section Linear

variable {fields : List (Bytes × Bytes)}

theorem findField_cons (pair : Bytes × Bytes) (fields : List (Bytes × Bytes)) (probe : Bytes) :
    HashStore.findField (pair :: fields) probe =
      if pair.1 = probe then some pair.2 else HashStore.findField fields probe := by
  rw [HashStore.findField, List.find?_cons]
  by_cases same : pair.1 = probe
  · rw [if_pos same, beq_iff_eq.mpr same]
    rfl
  · rw [if_neg same, beq_eq_false_iff_ne.mpr same]
    rfl

theorem findField_replaceField (field value probe : Bytes) :
    HashStore.findField (HashStore.replaceField fields field value) probe =
      if field = probe then (HashStore.findField fields probe).map fun _ => value
      else HashStore.findField fields probe := by
  induction fields with
  | nil => exact (ite_self none).symm
  | cons pair fields ih =>
      have isReplaced : HashStore.replaceField (pair :: fields) field value =
          (if pair.1 = field then (pair.1, value) else pair) ::
            HashStore.replaceField fields field value := rfl
      rw [isReplaced, findField_cons, findField_cons, ih]
      by_cases isField : pair.1 = field
      · rw [if_pos isField, isField]
        by_cases isProbe : field = probe
        · rw [if_pos isProbe, if_pos isProbe, if_pos isProbe]
          rfl
        · rw [if_neg isProbe, if_neg isProbe, if_neg isProbe, if_neg isProbe]
      · rw [if_neg isField]
        by_cases isProbe : field = probe
        · subst isProbe
          rw [if_neg isField, if_neg isField]
        · rw [if_neg isProbe, if_neg isProbe]

theorem findField_append (absent : HashStore.findField fields field = none)
    (value probe : Bytes) :
    HashStore.findField (fields ++ [(field, value)]) probe =
      if field = probe then some value else HashStore.findField fields probe := by
  induction fields with
  | nil => exact findField_cons (field, value) [] probe
  | cons pair fields ih =>
      rw [findField_cons] at absent
      have notField : pair.1 ≠ field := by
        intro isField
        rw [if_pos isField] at absent
        cases absent
      rw [if_neg notField] at absent
      rw [List.cons_append, findField_cons, findField_cons, ih absent]
      by_cases isPair : pair.1 = probe
      · have notProbe : field ≠ probe := fun isProbe => notField (isPair.trans isProbe.symm)
        rw [if_pos isPair, if_pos isPair, if_neg notProbe]
      · rw [if_neg isPair, if_neg isPair]

/-- Promotion keeps every binding. -/
theorem lookup_promote (distinct : (fields.map Prod.fst).Nodup) (probe : Bytes) :
    (HashStore.promote fields)[probe]? = HashStore.findField fields probe := by
  have promoted : ∀ map : ByteMap Bytes,
      (fields.foldl (fun map pair => map.insert pair.1 pair.2) map)[probe]? =
        (HashStore.findField fields probe).or map[probe]? := by
    induction fields with
    | nil => exact fun map => rfl
    | cons pair fields ih =>
        intro map
        rw [List.map_cons, List.nodup_cons] at distinct
        rw [List.foldl_cons, ih distinct.2, ByteMap.lookup_insert, findField_cons]
        by_cases isProbe : pair.1 = probe
        · have absent : HashStore.findField fields probe = none := by
            rw [← Option.not_isSome_iff_eq_none, HashStore.isSome_findField, ← isProbe]
            exact distinct.1
          rw [if_pos isProbe, if_pos isProbe, absent]
          rfl
        · rw [if_neg isProbe, if_neg isProbe]
  rw [HashStore.promote, promoted]
  cases HashStore.findField fields probe with
  | none => exact Std.ExtTreeMap.getElem?_empty
  | some value => rfl

theorem mem_eraseP_iff (distinct : (fields.map Prod.fst).Nodup) (field probe value : Bytes) :
    (probe, value) ∈ fields.eraseP (fun pair => pair.1 = field) ↔
      probe ≠ field ∧ (probe, value) ∈ fields := by
  induction fields with
  | nil => simp
  | cons pair fields ih =>
      rw [List.map_cons, List.nodup_cons] at distinct
      by_cases isField : pair.1 = field
      · rw [List.eraseP_cons_of_pos (by simpa using isField), List.mem_cons]
        constructor
        · intro isMember
          refine ⟨fun isProbe => distinct.1 ?_, .inr isMember⟩
          rw [isField, ← isProbe]
          exact List.mem_map_of_mem isMember
        · rintro ⟨notField, isPair | isMember⟩
          · exact absurd (by rw [← isField, ← isPair]) notField
          · exact isMember
      · rw [List.eraseP_cons_of_neg (by simpa using isField), List.mem_cons, List.mem_cons,
          ih distinct.2]
        constructor
        · rintro (rfl | ⟨notField, isMember⟩)
          · exact ⟨isField, .inl rfl⟩
          · exact ⟨notField, .inr isMember⟩
        · rintro ⟨notField, isPair | isMember⟩
          · exact .inl isPair
          · exact .inr ⟨notField, isMember⟩

theorem findField_swapRemove (distinct : (fields.map Prod.fst).Nodup) (field probe : Bytes) :
    HashStore.findField (HashStore.swapRemove fields field) probe =
      if field = probe then none else HashStore.findField fields probe := by
  have isMember (value : Bytes) :
      HashStore.findField (HashStore.swapRemove fields field) probe = some value ↔
        probe ≠ field ∧ (probe, value) ∈ fields := by
    rw [HashStore.findField_eq_some_iff (HashStore.swapRemove_distinct distinct field),
      (HashStore.swapRemove_perm fields field).mem_iff, mem_eraseP_iff distinct]
  refine Option.ext fun value => ?_
  rw [isMember]
  by_cases isProbe : field = probe
  · rw [if_pos isProbe]
    exact iff_of_false (fun both => both.1 isProbe.symm) (Option.some_ne_none value).symm
  · rw [if_neg isProbe, HashStore.findField_eq_some_iff distinct]
    exact and_iff_right (Ne.symm isProbe)

end Linear

/-! ## What is found after an operation -/

section Found

variable (store : HashStore) (field value probe : Bytes)

theorem get_insert :
    (store.insert field value).2.get probe =
      if field = probe then some value else store.get probe := by
  cases store with
  | map fields => exact ByteMap.lookup_insert fields field probe value
  | linear fields distinct small =>
      rw [HashStore.insert]
      by_cases present : field ∈ fields.map Prod.fst
      · rw [dif_pos present]
        refine (findField_replaceField field value probe).trans ?_
        by_cases isProbe : field = probe
        · obtain ⟨old, isOld⟩ := Option.isSome_iff_exists.mp
            ((HashStore.isSome_findField fields field).mpr present)
          rw [if_pos isProbe, if_pos isProbe, ← isProbe, isOld, Option.map_some]
        · rw [if_neg isProbe, if_neg isProbe]
          rfl
      · have absent : HashStore.findField fields field = none := by
          rwa [← Option.not_isSome_iff_eq_none, HashStore.isSome_findField]
        rw [dif_neg present]
        by_cases room : fields.length < hashLinearThreshold
        · rw [dif_pos room]
          exact findField_append absent value probe
        · rw [dif_neg room]
          refine (ByteMap.lookup_insert _ field probe value).trans ?_
          rw [lookup_promote distinct]
          rfl

theorem insert_fst : (store.insert field value).1 = store.get field := by
  by_cases present : (store.get field).isSome = true
  · rw [HashStore.insert_of_present present]
  · have absent := Option.not_isSome_iff_eq_none.mp present
    rw [HashStore.insert_of_absent absent, absent]

theorem get_remove :
    (store.remove field).2.get probe = if field = probe then none else store.get probe := by
  cases store with
  | map fields => exact ByteMap.lookup_erase fields field probe
  | linear fields distinct small => exact findField_swapRemove distinct field probe

theorem remove_fst : (store.remove field).1 = store.get field := by
  cases store with
  | map fields => rfl
  | linear fields distinct small => rfl

theorem get_writeMut :
    (writeMut store field value).2.get probe =
      if field = probe then (store.get field).map fun _ => value else store.get probe := by
  rw [writeMut]
  cases isOld : store.get field with
  | none =>
      by_cases isProbe : field = probe
      · rw [if_pos isProbe, ← isProbe, isOld]
        rfl
      · rw [if_neg isProbe]
  | some old =>
      have isInsert := HashStore.insert_of_present
        (show (store.get field).isSome = true by rw [isOld]; rfl) value
      have isFound := get_insert store field value probe
      rw [isInsert] at isFound
      exact isFound

theorem writeMut_fst : (writeMut store field value).1 = store.get field := by
  rw [writeMut]
  cases store.get field with
  | none => rfl
  | some old => rfl

theorem containsKey_eq : store.containsKey field = (store.get field).isSome := by
  cases store with
  | map fields => exact Std.ExtTreeMap.contains_eq_isSome_getElem?
  | linear fields distinct small =>
      rw [Bool.eq_iff_iff, HashStore.containsKey, List.any_eq_true, HashStore.get,
        HashStore.isSome_findField, List.mem_map]
      simp

theorem iterIn_perm (order : IterationOrder) : (iterIn order store).Perm store.iter := by
  cases store with
  | map fields => exact order.isPerm fields.toList
  | linear fields distinct small => exact .refl _

theorem len_eq : store.len = store.iter.length := by
  cases store with
  | map fields => exact Std.ExtTreeMap.length_toList.symm
  | linear fields distinct small => rfl

end Found

/-! ## Runs -/

section Run

variable {store : HashStore} {map : FieldMap} (represents : Represents store map)
include represents

/-- The fields of a store are those of its map. -/
theorem toFinset_iter : (store.iter.map Prod.fst).toFinset = map.keys := by
  ext field
  rw [List.mem_toFinset, Finmap.mem_keys, Finmap.mem_iff, List.mem_map]
  constructor
  · rintro ⟨⟨name, value⟩, isMember, rfl⟩
    exact ⟨value, (represents name).symm.trans ((HashStore.mem_iter store name value).mp isMember)⟩
  · rintro ⟨value, isValue⟩
    rw [← represents field, ← HashStore.mem_iter] at isValue
    exact ⟨(field, value), isValue, rfl⟩

/-- An operation gives the answer of the map. -/
theorem step_answers (op : Op) : Answers map (step store op).1 op := by
  cases op with
  | insert field value =>
      exact congrArg Answer.value ((insert_fst store field value).trans (represents field))
  | remove field => exact congrArg Answer.value ((remove_fst store field).trans (represents field))
  | write field value =>
      exact congrArg Answer.value ((writeMut_fst store field value).trans (represents field))
  | get field => exact congrArg Answer.value (represents field)
  | containsKey field =>
      refine congrArg Answer.flag ?_
      rw [containsKey_eq, represents field]
  | len =>
      refine congrArg Answer.count ?_
      rw [← toFinset_iter represents, List.toFinset_card_of_nodup store.iter_distinct,
        List.length_map, len_eq]
  | keys order =>
      have isPerm := (iterIn_perm store order).map Prod.fst
      refine ⟨_, rfl, isPerm.nodup_iff.mpr store.iter_distinct, fun field => ?_⟩
      rw [keysIn, isPerm.mem_iff, ← Finmap.mem_keys, ← toFinset_iter represents, List.mem_toFinset]
  | iter order =>
      have isPerm := iterIn_perm store order
      refine ⟨_, rfl, (isPerm.map Prod.fst).nodup_iff.mpr store.iter_distinct,
        fun field value => ?_⟩
      rw [isPerm.mem_iff, HashStore.mem_iter, represents field]

/-- An operation keeps the store in step with the map. -/
theorem step_represents (op : Op) : Represents (step store op).2 (after map op) := by
  intro probe
  cases op with
  | insert field value =>
      refine (get_insert store field value probe).trans ?_
      by_cases isProbe : field = probe
      · rw [if_pos isProbe, after, ← isProbe, Finmap.lookup_insert]
      · rw [if_neg isProbe, after, Finmap.lookup_insert_of_ne _ (Ne.symm isProbe), represents probe]
  | remove field =>
      refine (get_remove store field probe).trans ?_
      by_cases isProbe : field = probe
      · rw [if_pos isProbe, after, ← isProbe, Finmap.lookup_erase]
      · rw [if_neg isProbe, after, Finmap.lookup_erase_ne (Ne.symm isProbe), represents probe]
  | write field value =>
      refine (get_writeMut store field value probe).trans ?_
      rw [represents field, after]
      by_cases isMember : field ∈ map
      · obtain ⟨old, isOld⟩ := Finmap.mem_iff.mp isMember
        rw [if_pos isMember, isOld, Option.map_some]
        by_cases isProbe : field = probe
        · rw [if_pos isProbe, ← isProbe, Finmap.lookup_insert]
        · rw [if_neg isProbe, Finmap.lookup_insert_of_ne _ (Ne.symm isProbe), represents probe]
      · rw [if_neg isMember, Finmap.lookup_eq_none.mpr isMember]
        by_cases isProbe : field = probe
        · rw [if_pos isProbe, ← isProbe, Finmap.lookup_eq_none.mpr isMember]
          rfl
        · rw [if_neg isProbe, represents probe]
  | get | containsKey | len | keys | iter => exact represents probe

theorem run_runs (ops : List Op) :
    ∃ last, Runs ops map (run ops store).1 last ∧ Represents (run ops store).2 last := by
  induction ops generalizing store map with
  | nil => exact ⟨map, ⟨rfl, rfl⟩, represents⟩
  | cons op ops ih =>
      obtain ⟨last, runs, isLast⟩ := ih (step_represents represents op)
      exact ⟨last, ⟨_, _, rfl, step_answers represents op, runs⟩, isLast⟩

end Run

/-- The stores that runs start from. -/
inductive Start
  | single (field value : Bytes)
  | empty

/-- `with_single`, or an empty `Map`. -/
def Start.store : Start → HashStore
  | .single field value => .withSingle field value
  | .empty => .map ∅

/-- The map of a first store. -/
def Start.map : Start → FieldMap
  | .single field value => Finmap.singleton field value
  | .empty => ∅

theorem Start.represents (start : Start) : Represents start.store start.map := by
  intro probe
  cases start with
  | single field value =>
      refine (findField_cons (field, value) [] probe).trans ?_
      by_cases isProbe : field = probe
      · rw [if_pos isProbe, Start.map, ← isProbe, Finmap.lookup_singleton_eq]
      · have notMember : probe ∉ Finmap.singleton (β := fun _ => Bytes) field value := fun isMember =>
          isProbe ((Finmap.mem_singleton probe field value).mp isMember).symm
        rw [if_neg isProbe, Start.map, Finmap.lookup_eq_none.mpr notMember]
        rfl
  | empty =>
      rw [Start.map, Finmap.lookup_empty]
      exact Std.ExtTreeMap.getElem?_empty

/-- A store that is linear has at most eight fields, all different, and the ninth turns it
into a map of just these bindings and the new one. -/
def LinearlySound (store : HashStore) : Prop :=
  ∀ fields distinct small, store = .linear fields distinct small →
    (fields.map Prod.fst).Nodup ∧ fields.length ≤ 8 ∧
      ∀ field value, field ∉ fields.map Prod.fst → fields.length = 8 →
        ∃ map, (store.insert field value).2 = .map map ∧
          map.toList.Perm ((field, value) :: fields)

/-- The pairs of a promoted store. -/
theorem toList_promote {fields : List (Bytes × Bytes)} (distinct : (fields.map Prod.fst).Nodup)
    {field : Bytes} (absent : field ∉ fields.map Prod.fst) (value : Bytes) :
    ((HashStore.promote fields).insert field value).toList.Perm ((field, value) :: fields) := by
  have isLeft : ((HashStore.promote fields).insert field value).toList.Nodup :=
    (HashStore.iter_distinct (.map ((HashStore.promote fields).insert field value))).of_map
  have isRight : (((field, value) :: fields).map Prod.fst).Nodup :=
    List.nodup_cons.mpr ⟨absent, distinct⟩
  refine (List.perm_ext_iff_of_nodup isLeft isRight.of_map).mpr fun pair => ?_
  rw [Std.ExtTreeMap.mem_toList_iff_getElem?_eq_some, ByteMap.lookup_insert, lookup_promote distinct,
    ← findField_cons (field, value), HashStore.findField_eq_some_iff isRight]

theorem linearlySound (store : HashStore) : LinearlySound store := by
  rintro fields distinct small rfl
  refine ⟨distinct, small, fun field value absent isFull => ?_⟩
  have notRoom : ¬fields.length < hashLinearThreshold := by
    rw [isFull]
    exact lt_irrefl _
  refine ⟨_, ?_, toList_promote distinct absent value⟩
  rw [HashStore.insert, dif_neg absent, dif_neg notRoom]

/-- Every run of the operations of a hash gives the answers of a finite map. -/
theorem fieldMaps_refine (start : Start) (ops : List Op) :
    (∃ last, Runs ops start.map (run ops start.store).1 last ∧
      Represents (run ops start.store).2 last) ∧
    LinearlySound (run ops start.store).2 :=
  ⟨run_runs start.represents ops, linearlySound _⟩

end FieldMaps
end Cache
end MuonJs
