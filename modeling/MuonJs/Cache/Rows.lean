import MuonJs.Cache.Persist

/-!
# The rows of one value

What a snapshot writes into the cell of a value, and what a load reads from it.
A value comes back when it is persistable: a stream needs its IDs in strictly
increasing byte order and a field in every entry, and a sorted set must not
hold NaN.  All other values come back, with an integer as its decimal string and
a hash as a map.
-/

namespace MuonJs
namespace Cache

namespace Value

/-- Equal as values: a string or integer by its bytes, a hash as a finite map,
everything else as it is. -/
def agrees (left right : Value) : Prop :=
  match left, right with
  | .hash left, .hash right => ∀ field, left.get field = right.get field
  | left, right =>
      match left.asString, right.asString with
      | some left, some right => left = right
      | _, _ => left = right

/-- The IDs of a stream are in strictly increasing byte order. -/
def IdsIncrease (items : List StreamEntry) : Prop :=
  items.Pairwise fun first second =>
    compare (asBytes first.1) (asBytes second.1) = .lt

/-- The values that a snapshot and a load give back. -/
def Persistable : Value → Prop
  | .zset items =>
      ∀ (member : Bytes) (score : F64),
        items[member]? = some score → score.isNan = false
  | .stream items => IdsIncrease items ∧ ∀ entry ∈ items, entry.2 ≠ []
  | _ => True

end Value

namespace LibsqlPersist

/-! ## Collected maps -/

/-- Collecting rows with distinct keys gives the map with those rows, in
whatever order they come. -/
theorem lookup_collectMap
    (rows : List (Bytes × α)) (distinct : (rows.map Prod.fst).Nodup)
    (key : Bytes) (value : α) :
    (collectMap rows)[key]? = some value ↔ (key, value) ∈ rows := by
  have general : ∀ (rows : List (Bytes × α)) (start : ByteMap α),
      (rows.map Prod.fst).Nodup →
      ((rows.foldl (fun map row => map.insert row.1 row.2) start)[key]? =
          some value ↔
        (key, value) ∈ rows ∨
          key ∉ rows.map Prod.fst ∧ start[key]? = some value) := by
    intro rows
    induction rows with
    | nil => intro start _; simp
    | cons row rows ih =>
        intro start distinct
        rw [List.map_cons, List.nodup_cons] at distinct
        rw [List.foldl_cons, ih _ distinct.2, ByteMap.lookup_insert]
        obtain ⟨rowKey, rowValue⟩ := row
        by_cases same : rowKey = key
        · subst same
          have notLater : (rowKey, value) ∉ rows := fun later =>
            distinct.1 (List.mem_map.mpr ⟨_, later, rfl⟩)
          have notKey : rowKey ∉ rows.map Prod.fst := distinct.1
          simp only [notLater, notKey, not_false_eq_true, true_and, if_true,
            Option.some.injEq, List.mem_cons, Prod.mk.injEq, List.map_cons,
            not_true_eq_false, false_or, or_false, false_and]
          exact eq_comm
        · have notFirst : (key, value) ≠ (rowKey, rowValue) := fun equal =>
            same (Prod.ext_iff.mp equal).1.symm
          simp only [same, if_false, List.mem_cons, List.map_cons, notFirst,
            false_or, Ne.symm same]
  have collected := general rows ∅ distinct
  rw [collectMap, collected]
  simp

/-! ## Writing one value -/

/-- Writes that append items to one column of a slice succeed exactly when the
items can be appended. -/
theorem applySlices_append
    [DecidableEq Part']
    (put : List (Part' × Row) → Slice)
    (write : α → Write) (item : α → Part') (row : α → Row)
    (step : ∀ items x, Write.applySlice (put items) (write x) =
      (Table.appendItem items (item x) (row x)).map put)
    (items : List (Part' × Row)) (xs : List α) :
    Write.applySlices (put items) (xs.map write) =
      (Table.appendItems items (xs.map fun x => (item x, row x))).map put := by
  induction xs generalizing items with
  | nil => rfl
  | cons x xs ih =>
      rw [List.map_cons, List.map_cons, Write.applySlices, List.foldlM_cons,
        step, Table.appendItems, List.foldlM_cons]
      cases Table.appendItem items (item x) (row x) with
      | none => rfl
      | some next => exact ih next

/-- The rows of a list. -/
def listRows (items : List Bytes) : List (Int × Bytes) :=
  items.zipIdx.map fun pair => ((pair.2 : Int), pair.1)

/-- The rows of a stream. -/
def streamRows (items : List StreamEntry) :
    List ((Bytes × Int) × Bytes × Bytes) :=
  items.flatMap fun entry =>
    entry.2.zipIdx.map fun pair =>
      ((asBytes entry.1, (pair.2 : Int)), pair.1)

/-- What a value leaves in the slice of its cell, where it can be written. -/
def encode (slice : Slice) (value : Value) (exp : Option UInt64) :
    Option Slice :=
  let expValue := exp.map UInt64.toInt64
  match value with
  | .string bytes => some { slice with kv := some ⟨0, some bytes, expValue⟩ }
  | .int n =>
      some { slice with kv := some ⟨0, some (writeI64Bytes n), expValue⟩ }
  | .list items =>
      some { slice with
        kv := some ⟨1, some [], expValue⟩, listItems := listRows items }
  | .set items =>
      some { slice with
        kv := some ⟨2, some [], expValue⟩
        setItems := items.toList.map fun item => (item, ()) }
  | .hash items =>
      some { slice with
        kv := some ⟨3, some [], expValue⟩, hashItems := items.iter }
  | .zset items =>
      some { slice with
        kv := some ⟨4, some [], expValue⟩
        zsetItems := items.toList.map fun item => (item.1, bindReal item.2) }
  | .stream items =>
      if ((streamRows items).map Prod.fst).Nodup then
        some { slice with
          kv := some ⟨5, some [], expValue⟩
          streamEntries := streamRows items }
      else none

/-- Appending distinct items to nothing succeeds. -/
theorem appendItems_nil_eq [DecidableEq Part'] (new : List (Part' × Row)) :
    Table.appendItems [] new =
      if (new.map Prod.fst).Nodup then some new else none :=
  Table.appendItems_eq [] new List.nodup_nil

theorem listRows_distinct (items : List Bytes) :
    ((listRows items).map Prod.fst).Nodup := by
  have indices : (listRows items).map Prod.fst =
      (items.zipIdx.map Prod.snd).map Int.ofNat := by
    rw [listRows, List.map_map, List.map_map]
    rfl
  rw [indices, List.zipIdx_map_snd]
  exact (List.nodup_range' 1).map fun first second same => Int.ofNat.inj same

theorem set_toList_distinct (items : ByteSet) : items.toList.Nodup :=
  Std.ExtTreeSet.distinct_toList.imp fun different same =>
    different (by rw [same, Std.LawfulEqCmp.compare_eq_iff_eq])

/-- The writes for a value have the effect of `encode`. -/
theorem applySlices_writesOf
    (slice : Slice) (cell : Cell) (value : Value) (exp : Option UInt64) :
    Write.applySlices slice (writesOf cell value exp) = encode slice value exp := by
  cases value with
  | string bytes => rfl
  | int n => rfl
  | list items =>
      refine (applySlices_append
        (fun rows => { slice with
          kv := some ⟨1, some [], exp.map UInt64.toInt64⟩, listItems := rows })
        (fun (pair : Bytes × ℕ) => Write.insertList cell pair.2 pair.1)
        (fun pair => (pair.2 : Int)) Prod.fst (fun _ _ => rfl) []
        items.zipIdx).trans ?_
      have rows : (items.zipIdx.map fun pair => ((pair.2 : Int), pair.1)) =
          listRows items := rfl
      rw [rows, appendItems_nil_eq, if_pos (listRows_distinct items)]
      rfl
  | set items =>
      refine (applySlices_append
        (fun rows => { slice with
          kv := some ⟨2, some [], exp.map UInt64.toInt64⟩, setItems := rows })
        (fun item => Write.insertSet cell item)
        (fun item => item) (fun _ => ()) (fun _ _ => rfl) []
        items.toList).trans ?_
      have distinct : ((items.toList.map fun item => (item, ())).map
          Prod.fst).Nodup := by
        rw [List.map_map]
        exact (List.map_id items.toList).symm ▸ set_toList_distinct items
      rw [appendItems_nil_eq, if_pos distinct]
      rfl
  | hash items =>
      refine (applySlices_append
        (fun rows => { slice with
          kv := some ⟨3, some [], exp.map UInt64.toInt64⟩, hashItems := rows })
        (fun (pair : Bytes × Bytes) => Write.insertHash cell pair.1 pair.2)
        Prod.fst Prod.snd (fun _ _ => rfl) [] items.iter).trans ?_
      rw [appendItems_nil_eq]
      have pairs : (items.iter.map fun pair => (pair.1, pair.2)) = items.iter :=
        List.map_id items.iter
      rw [pairs, if_pos items.iter_distinct]
      rfl
  | zset items =>
      refine (applySlices_append
        (fun rows => { slice with
          kv := some ⟨4, some [], exp.map UInt64.toInt64⟩, zsetItems := rows })
        (fun (pair : Bytes × F64) => Write.insertZset cell pair.1 pair.2)
        Prod.fst (fun pair => bindReal pair.2) (fun _ _ => rfl) []
        items.toList).trans ?_
      have distinct : ((items.toList.map fun pair =>
          (pair.1, bindReal pair.2)).map Prod.fst).Nodup := by
        rw [List.map_map]
        change (items.toList.map Prod.fst).Nodup
        rw [Std.ExtTreeMap.map_fst_toList_eq_keys]
        exact Std.ExtTreeMap.nodup_keys
      rw [appendItems_nil_eq, if_pos distinct]
      rfl
  | stream items =>
      have writes : writesOf cell (.stream items) exp =
          .replaceKv cell ⟨5, some [], exp.map UInt64.toInt64⟩ ::
            .deleteItems .streamEntries cell ::
            (streamRows items).map fun row =>
              .insertStream cell row.1.1 row.1.2 row.2.1 row.2.2 := by
        simp only [writesOf, streamRows, List.map_flatMap, List.map_map]
        rfl
      rw [writes]
      refine (applySlices_append
        (fun rows => { slice with
          kv := some ⟨5, some [], exp.map UInt64.toInt64⟩
          streamEntries := rows })
        (fun (row : (Bytes × Int) × Bytes × Bytes) =>
          Write.insertStream cell row.1.1 row.1.2 row.2.1 row.2.2)
        Prod.fst Prod.snd (fun _ _ => rfl) [] (streamRows items)).trans ?_
      have rows : ((streamRows items).map fun row => (row.1, row.2)) =
          streamRows items := List.map_id _
      rw [rows, appendItems_nil_eq, encode]
      split <;> rfl

/-! ## Reading one value -/

/-- The value that a `kv` row and the slice of its cell stand for. -/
def decodeValue (row : KvRow) (slice : Slice) : Fallible (Option Value) :=
  if row.type = 0 then .ok (some (.string (row.value.getD [])))
  else if row.type = 1 then
    .ok (some (.list ((slice.listItems.insertionSort
      fun left right => left.1 ≤ right.1).map Prod.snd)))
  else if row.type = 2 then
    .ok (some (.set ((∅ : ByteSet).insertMany (slice.setItems.map Prod.fst))))
  else if row.type = 3 then
    .ok (some (.hash (.map (collectMap slice.hashItems))))
  else if row.type = 4 then
    (((slice.zsetItems.insertionSort fun left right =>
      Statement.scoreLe left right).mapM readScore).map collectMap).map
        fun items => some (.zset items)
  else if row.type = 5 then
    .ok (some (.stream (groupEntries [] none []
      (slice.streamEntries.insertionSort fun left right =>
        Statement.entryLe left right))))
  else .ok none

/-- The entry that the slice of a cell stands for. -/
def decode (slice : Slice) : Fallible (Option Entry) :=
  match slice.kv with
  | none => .ok none
  | some row =>
      (decodeValue row slice).map fun value =>
        value.map fun value => ⟨value, row.expiresAtMs.map Int64.toUInt64⟩

/-- A row with its score as a number. -/
def plainRow (row : Bytes × Option SqlReal) : Bytes × Option F64 :=
  (row.1, row.2.map Subtype.val)

/-- Reading scores succeeds exactly when none is NULL. -/
theorem mapM_readScore_eq_ok
    (rows : List (Bytes × Option SqlReal)) (scores : List (Bytes × F64)) :
    rows.mapM readScore = .ok scores ↔
      rows.map plainRow = scores.map fun pair => (pair.1, some pair.2) := by
  induction rows generalizing scores with
  | nil =>
      rw [List.mapM_nil]
      constructor
      · intro same
        cases same
        rfl
      · intro same
        rw [List.map_nil, List.nil_eq, List.map_eq_nil_iff] at same
        rw [same]
        rfl
  | cons row rows ih =>
      obtain ⟨member, score⟩ := row
      rw [List.mapM_cons]
      cases score with
      | none =>
          constructor
          · intro same
            cases same
          · intro same
            cases scores with
            | nil => cases same
            | cons pair scores => simp [plainRow] at same
      | some score =>
          change (rows.mapM readScore).map (fun rest => (member, score.1) :: rest) =
            .ok scores ↔ _
          cases read : rows.mapM readScore with
          | error reason =>
              constructor
              · intro same
                cases same
              · intro same
                cases scores with
                | nil => cases same
                | cons pair scores =>
                    simp only [List.map_cons, List.cons.injEq] at same
                    rw [(ih scores).mpr same.2] at read
                    cases read
          | ok rest =>
              have restRows := (ih rest).mp read
              constructor
              · intro same
                cases same
                rw [List.map_cons, List.map_cons, restRows]
                rfl
              · intro same
                cases scores with
                | nil => cases same
                | cons pair scores =>
                    simp only [plainRow, List.map_cons, List.cons.injEq,
                      Prod.mk.injEq, Option.map_some, Option.some.injEq] at same
                    rw [(ih scores).mpr same.2] at read
                    cases read
                    change Except.ok ((member, score.1) :: rest) = _
                    rw [same.1.1, same.1.2]

/-! ## Streams -/

instance : Std.TransCmp Statement.entryOrder :=
  inferInstanceAs (Std.TransCmp (compareLex
    (compareOn fun row : (Bytes × Int) × Bytes × Bytes => row.1.1)
    (compareOn fun row => row.1.2)))

instance : Std.Total fun left right => Statement.entryLe left right = true where
  total left right := by
    unfold Statement.entryLe
    have swapped : Statement.entryOrder right left =
        (Statement.entryOrder left right).swap := Std.OrientedCmp.eq_swap
    rw [swapped]
    cases Statement.entryOrder left right <;> simp

instance : IsTrans _ fun left right => Statement.entryLe left right = true where
  trans _ _ _ := Std.TransCmp.isLE_trans

/-- A row may stand before another when its ID is smaller, or equal with a
smaller index. -/
theorem entryLe_iff (left right : (Bytes × Int) × Bytes × Bytes) :
    Statement.entryLe left right = true ↔
      compare left.1.1 right.1.1 = .lt ∨
        left.1.1 = right.1.1 ∧ left.1.2 ≤ right.1.2 := by
  unfold Statement.entryLe Statement.entryOrder compareLex compareOn
  cases ids : compare left.1.1 right.1.1 with
  | lt => simp
  | gt =>
      have different : left.1.1 ≠ right.1.1 := fun same => by
        simp [same] at ids
      simp [different]
  | eq =>
      rw [Std.LawfulEqCmp.compare_eq_iff_eq] at ids
      simp [ids, ← Std.isLE_compare]

/-- Rows of one entry are collected into its fields. -/
theorem groupEntries_same
    (out : List StreamEntry) (entryId : String)
    (fields : List (Bytes × Bytes))
    (own rest : List ((Bytes × Int) × Bytes × Bytes))
    (sameId : ∀ row ∈ own, decodeId row.1.1 = entryId) :
    groupEntries out (some entryId) fields (own ++ rest) =
      groupEntries out (some entryId) (fields ++ own.map Prod.snd) rest := by
  induction own generalizing fields with
  | nil => simp
  | cons row own ih =>
      rw [List.cons_append, groupEntries]
      have sameFirst := sameId row List.mem_cons_self
      rw [if_neg (by rw [sameFirst]; simp),
        ih _ fun other otherMem => sameId other (List.mem_cons_of_mem _ otherMem),
        List.map_cons, List.append_assoc, List.singleton_append]

@[simp] theorem decodeId_asBytes (entryId : String) :
    decodeId (asBytes entryId) = entryId := by
  rw [decodeId, fromUtf8_asBytes, Option.getD_some]

/-- Distinct neighbours and a field in every entry are all that grouping needs
to give back the entries. -/
theorem groupEntries_streamRows
    (out : List StreamEntry) (entryId : String)
    (fields : List (Bytes × Bytes)) (items : List StreamEntry)
    (increase : Value.IdsIncrease ((entryId, fields) :: items))
    (nonempty : ∀ entry ∈ items, entry.2 ≠ []) :
    groupEntries out (some entryId) fields (streamRows items) =
      out ++ (entryId, fields) :: items := by
  induction items generalizing out entryId fields with
  | nil => rfl
  | cons entry items ih =>
      obtain ⟨nextId, nextFields⟩ := entry
      have before := (List.pairwise_cons.mp increase).1 _ List.mem_cons_self
      have different : entryId ≠ nextId := by
        rintro rfl
        simp at before
      cases nextFields with
      | nil => exact absurd rfl (nonempty _ List.mem_cons_self)
      | cons first more =>
          have rows : streamRows ((nextId, first :: more) :: items) =
              ((asBytes nextId, 0), first) ::
                ((more.zipIdx 1).map fun pair =>
                  ((asBytes nextId, (pair.2 : Int)), pair.1)) ++
                streamRows items := rfl
          rw [rows, List.cons_append, groupEntries]
          simp only [decodeId_asBytes]
          rw [if_pos (by simpa using different), groupEntries_same]
          · have moreFields : ((more.zipIdx 1).map fun pair =>
                ((asBytes nextId, (pair.2 : Int)), pair.1)).map Prod.snd = more := by
              rw [List.map_map]
              exact List.zipIdx_map_fst 1 more
            rw [moreFields, List.singleton_append,
              ih _ _ _ (List.pairwise_cons.mp increase).2 fun other otherMem =>
                nonempty other (List.mem_cons_of_mem _ otherMem),
              List.append_assoc, List.singleton_append]
          · intro row rowMem
            obtain ⟨pair, -, rfl⟩ := List.mem_map.mp rowMem
            exact decodeId_asBytes nextId

/-- The rows of a persistable stream are in order and have distinct keys. -/
theorem streamRows_ordered
    (items : List StreamEntry) (increase : Value.IdsIncrease items) :
    (streamRows items).Pairwise fun left right =>
      Statement.entryLe left right = true ∧ left.1 ≠ right.1 := by
  unfold streamRows
  refine List.pairwise_flatMap.mpr ⟨fun entry _ => ?_, ?_⟩
  · refine List.pairwise_map.mpr ?_
    have indices : (entry.2.zipIdx.map Prod.snd).Pairwise (· < ·) := by
      rw [List.zipIdx_map_snd]
      exact List.pairwise_lt_range'
    refine (List.pairwise_map.mp indices).imp fun less => ?_
    refine ⟨(entryLe_iff _ _).mpr (.inr ⟨rfl, Int.ofNat_le.mpr less.le⟩), ?_⟩
    intro same
    have sameIdx := Int.ofNat.inj (Prod.ext_iff.mp same).2
    exact less.ne sameIdx
  · refine increase.imp fun {first second} before left leftMem right rightMem => ?_
    obtain ⟨leftPair, -, rfl⟩ := List.mem_map.mp leftMem
    obtain ⟨rightPair, -, rfl⟩ := List.mem_map.mp rightMem
    refine ⟨(entryLe_iff _ _).mpr (.inl before), fun same => ?_⟩
    have sameId : asBytes first.1 = asBytes second.1 := (Prod.ext_iff.mp same).1
    simp [sameId] at before

/-- What grouping has built: the entries so far have increasing IDs, all before
the current one, and every entry has a field. -/
def GroupedTo (out : List StreamEntry) (currentId : Option String)
    (fields : List (Bytes × Bytes)) : Prop :=
  match currentId with
  | none => out = [] ∧ fields = []
  | some entryId =>
      Value.IdsIncrease (out ++ [(entryId, fields)]) ∧
        (∀ entry ∈ out, entry.2 ≠ []) ∧ fields ≠ []

/-- Grouping rows in order gives increasing IDs and a field in every entry. -/
theorem groupEntries_increase
    (rows : List ((Bytes × Int) × Bytes × Bytes))
    (ordered : rows.Pairwise fun left right => Statement.entryLe left right = true)
    (texts : ∀ row ∈ rows, ∃ text, row.1.1 = asBytes text)
    (out : List StreamEntry) (currentId : Option String)
    (fields : List (Bytes × Bytes))
    (grouped : GroupedTo out currentId fields)
    (later : ∀ entryId, currentId = some entryId → ∀ row ∈ rows,
      compare (asBytes entryId) row.1.1 ≠ .gt) :
    Value.Persistable (.stream (groupEntries out currentId fields rows)) := by
  induction rows generalizing out currentId fields with
  | nil =>
      cases currentId with
      | none =>
          obtain ⟨rfl, rfl⟩ := grouped
          exact ⟨List.Pairwise.nil, nofun⟩
      | some entryId =>
          obtain ⟨increase, nonempty, notEmpty⟩ := grouped
          refine ⟨increase, fun entry entryMem => ?_⟩
          rcases List.mem_append.mp entryMem with before | last
          · exact nonempty entry before
          · rw [List.mem_singleton.mp last]
            exact notEmpty
  | cons row rows ih =>
      obtain ⟨ownOrder, restOrdered⟩ := List.pairwise_cons.mp ordered
      obtain ⟨text, isText⟩ := texts row List.mem_cons_self
      have restTexts : ∀ other ∈ rows, ∃ text, other.1.1 = asBytes text :=
        fun other otherMem => texts other (List.mem_cons_of_mem _ otherMem)
      have restLater : ∀ other ∈ rows, compare (asBytes text) other.1.1 ≠ .gt := by
        intro other otherMem greater
        rw [← isText] at greater
        rcases (entryLe_iff row other).mp (ownOrder other otherMem) with
          less | ⟨same, -⟩
        · rw [less] at greater
          cases greater
        · simp [same] at greater
      have decoded : decodeId row.1.1 = text := by
        rw [isText, decodeId_asBytes]
      cases currentId with
      | none =>
          obtain ⟨rfl, rfl⟩ := grouped
          rw [groupEntries]
          simp only [decoded]
          rw [if_pos (by simp)]
          refine ih restOrdered restTexts _ _ _ ?_ ?_
          · exact ⟨List.pairwise_singleton _ _, nofun, by simp⟩
          · rintro entryId ⟨⟩
            exact restLater
      | some entryId =>
          obtain ⟨increase, nonempty, notEmpty⟩ := grouped
          rw [groupEntries]
          simp only [decoded]
          by_cases same : entryId = text
          · subst same
            rw [if_neg (by simp)]
            refine ih restOrdered restTexts _ _ _ ⟨?_, nonempty, by simp⟩ ?_
            · rw [Value.IdsIncrease, List.pairwise_append] at increase ⊢
              exact ⟨increase.1, List.pairwise_singleton _ _,
                fun first firstMem second secondMem => by
                  rw [List.mem_singleton.mp secondMem]
                  exact increase.2.2 first firstMem (entryId, fields)
                    (List.mem_singleton_self _)⟩
            · rintro other ⟨⟩
              exact restLater
          · rw [if_pos (by simpa using same)]
            have less : compare (asBytes entryId) (asBytes text) = .lt := by
              have notGreater := later entryId rfl row List.mem_cons_self
              rw [isText] at notGreater
              cases order : compare (asBytes entryId) (asBytes text) with
              | lt => rfl
              | gt => exact absurd order notGreater
              | eq =>
                  rw [Std.LawfulEqCmp.compare_eq_iff_eq] at order
                  exact absurd (asBytes_injective order) same
            refine ih restOrdered restTexts _ _ _ ⟨?_, ?_, by simp⟩ ?_
            · rw [Value.IdsIncrease, List.pairwise_append]
              refine ⟨increase, List.pairwise_singleton _ _,
                fun first firstMem second secondMem => ?_⟩
              rw [List.mem_singleton.mp secondMem]
              rcases List.mem_append.mp firstMem with before | last
              · have lessCurrent := (List.pairwise_append.mp increase).2.2
                  first before _ (List.mem_singleton_self _)
                exact Std.TransCmp.lt_trans lessCurrent less
              · rw [List.mem_singleton.mp last]
                exact less
            · intro entry entryMem
              rcases List.mem_append.mp entryMem with before | last
              · exact nonempty entry before
              · rw [List.mem_singleton.mp last]
                exact notEmpty
            · rintro other ⟨⟩
              exact restLater

/-- The IDs in the rows of a stream are texts. -/
theorem streamRows_texts (items : List StreamEntry) :
    ∀ row ∈ streamRows items, ∃ text, row.1.1 = asBytes text := by
  intro row rowMem
  obtain ⟨entry, -, pairMem⟩ := List.mem_flatMap.mp rowMem
  obtain ⟨pair, -, rfl⟩ := List.mem_map.mp pairMem
  exact ⟨entry.1, rfl⟩

/-- A stream comes back from its rows exactly when it is persistable. -/
theorem groupEntries_sorted_eq_iff (items : List StreamEntry) :
    groupEntries [] none [] ((streamRows items).insertionSort fun left right =>
        Statement.entryLe left right) = items ↔
      Value.Persistable (.stream items) := by
  constructor
  · intro same
    rw [← same]
    refine groupEntries_increase _ (List.pairwise_insertionSort _ _) ?_ [] none []
      ⟨rfl, rfl⟩ nofun
    intro row rowMem
    exact streamRows_texts items row ((List.mem_insertionSort _).mp rowMem)
  · rintro ⟨increase, nonempty⟩
    rw [((streamRows_ordered items increase).imp
      fun ordered => ordered.1).insertionSort_eq]
    cases items with
    | nil => rfl
    | cons entry items =>
        obtain ⟨entryId, fields⟩ := entry
        cases fields with
        | nil => exact absurd rfl (nonempty _ List.mem_cons_self)
        | cons first more =>
            have rows : streamRows ((entryId, first :: more) :: items) =
                ((asBytes entryId, 0), first) ::
                  ((more.zipIdx 1).map fun pair =>
                    ((asBytes entryId, (pair.2 : Int)), pair.1)) ++
                  streamRows items := rfl
            have moreFields : ((more.zipIdx 1).map fun pair =>
                ((asBytes entryId, (pair.2 : Int)), pair.1)).map Prod.snd = more := by
              rw [List.map_map]
              exact List.zipIdx_map_fst 1 more
            rw [rows, List.cons_append, groupEntries]
            simp only [decodeId_asBytes]
            rw [if_pos (by simp), groupEntries_same, moreFields,
              groupEntries_streamRows]
            · rfl
            · exact increase
            · exact fun other otherMem =>
                nonempty other (List.mem_cons_of_mem _ otherMem)
            · intro row rowMem
              obtain ⟨pair, -, rfl⟩ := List.mem_map.mp rowMem
              exact decodeId_asBytes entryId

/-! ## Writing and reading one value -/

@[simp] theorem exp_roundTrip (exp : Option UInt64) :
    (exp.map UInt64.toInt64).map Int64.toUInt64 = exp := by
  cases exp <;> simp

theorem bindReal_map_val (score : F64) :
    (bindReal score).map Subtype.val =
      if score.isNan then none else some score := by
  unfold bindReal
  by_cases number : score.isNan = false
  · rw [dif_pos number, number]
    rfl
  · rw [dif_neg number, if_pos (Bool.not_eq_false _ ▸ number)]
    rfl

/-- Scores come back exactly when none is NaN. -/
theorem zset_roundTrip (items : ByteMap F64) :
    ((((items.toList.map fun pair => (pair.1, bindReal pair.2)).insertionSort
        fun left right => Statement.scoreLe left right).mapM readScore).map
          collectMap = .ok items) ↔
      Value.Persistable (.zset items) := by
  generalize sorted : (items.toList.map fun pair =>
    (pair.1, bindReal pair.2)).insertionSort
      (fun left right => Statement.scoreLe left right) = rows
  have rowMem : ∀ row, row ∈ rows ↔
      ∃ score, items[row.1]? = some score ∧ row.2 = bindReal score := by
    intro row
    rw [← sorted, List.mem_insertionSort, List.mem_map]
    constructor
    · rintro ⟨pair, present, rfl⟩
      exact ⟨pair.2,
        Std.ExtTreeMap.mem_toList_iff_getElem?_eq_some.mp present, rfl⟩
    · rintro ⟨score, stored, bound⟩
      exact ⟨(row.1, score),
        Std.ExtTreeMap.mem_toList_iff_getElem?_eq_some.mpr stored,
        Prod.ext rfl bound.symm⟩
  have rowsDistinct : (rows.map Prod.fst).Nodup := by
    rw [← sorted, ((List.perm_insertionSort _ _).map Prod.fst).nodup_iff,
      List.map_map]
    change (items.toList.map Prod.fst).Nodup
    rw [Std.ExtTreeMap.map_fst_toList_eq_keys]
    exact Std.ExtTreeMap.nodup_keys
  constructor
  · intro loaded member score stored
    cases read : rows.mapM readScore with
    | error reason =>
        rw [read] at loaded
        cases loaded
    | ok scores =>
        have present : plainRow (member, bindReal score) ∈ rows.map plainRow :=
          List.mem_map_of_mem ((rowMem _).mpr ⟨score, stored, rfl⟩)
        rw [(mapM_readScore_eq_ok rows scores).mp read, List.mem_map] at present
        obtain ⟨pair, -, same⟩ := present
        have bound := (Prod.ext_iff.mp same).2
        rw [plainRow, bindReal_map_val] at bound
        cases isNan : score.isNan with
        | false => rfl
        | true => simp [isNan] at bound
  · intro noNan
    let scores := rows.map fun row => (row.1, (row.2.map Subtype.val).getD F64.zero)
    have rowsEq : rows.map plainRow =
        scores.map fun pair => (pair.1, some pair.2) := by
      rw [List.map_map]
      refine List.map_congr_left fun row present => ?_
      obtain ⟨score, stored, bound⟩ := (rowMem row).mp present
      have value := bindReal_map_val score
      rw [noNan row.1 score stored, ← bound] at value
      refine Prod.ext rfl ?_
      change row.2.map Subtype.val = some ((row.2.map Subtype.val).getD F64.zero)
      rw [value]
      rfl
    have scoresDistinct : (scores.map Prod.fst).Nodup := by
      rw [List.map_map]
      exact rowsDistinct
    have collected : collectMap scores = items := by
      apply Std.ExtTreeMap.ext_getElem?
      intro key
      apply Option.ext
      intro value
      rw [lookup_collectMap scores scoresDistinct]
      constructor
      · intro present
        obtain ⟨row, rowPresent, same⟩ := List.mem_map.mp present
        obtain ⟨score, stored, bound⟩ := (rowMem row).mp rowPresent
        have read := bindReal_map_val score
        rw [noNan row.1 score stored, ← bound] at read
        cases same
        rw [read]
        exact stored
      · intro stored
        have rowPresent := (rowMem (key, bindReal value)).mpr ⟨value, stored, rfl⟩
        have read := bindReal_map_val value
        rw [noNan key value stored] at read
        refine List.mem_map.mpr ⟨_, rowPresent, ?_⟩
        simp [read]
    rw [(mapM_readScore_eq_ok rows scores).mpr rowsEq]
    change Except.ok (collectMap scores) = _
    rw [collected]

/-- A cell stands for an entry when its row can be read as the value. -/
theorem decode_eq_ok_iff
    {slice : Slice} {type : Int} {bytes : Option Bytes} {exp : Option UInt64}
    (stored : slice.kv = some ⟨type, bytes, exp.map UInt64.toInt64⟩)
    (loaded : Value) :
    decode slice = .ok (some ⟨loaded, exp⟩) ↔
      decodeValue ⟨type, bytes, exp.map UInt64.toInt64⟩ slice =
        .ok (some loaded) := by
  rw [decode, stored]
  dsimp only
  rw [exp_roundTrip]
  cases decodeValue ⟨type, bytes, exp.map UInt64.toInt64⟩ slice with
  | error reason => exact iff_of_false nofun nofun
  | ok value =>
      cases value with
      | none => exact iff_of_false nofun nofun
      | some value =>
          change Except.ok (some (⟨value, exp⟩ : Entry)) = _ ↔ _
          simp

/-- Only itself agrees with a sorted set or a stream. -/
theorem eq_of_agrees
    {value loaded : Value}
    (notHash : ∀ fields, value ≠ .hash fields) (noString : value.asString = none)
    (agrees : value.agrees loaded) :
    value = loaded := by
  cases value with
  | hash fields => exact absurd rfl (notHash fields)
  | string bytes => cases noString
  | int n => cases noString
  | list | set | zset | stream => cases loaded <;> exact agrees

/-- Whatever a value leaves in its cell stands for an agreeing value exactly
when the value is persistable. -/
theorem decode_encode
    (slice after : Slice) (value : Value) (exp : Option UInt64)
    (written : encode slice value exp = some after) :
    (∃ loaded, decode after = .ok (some ⟨loaded, exp⟩) ∧ value.agrees loaded) ↔
      value.Persistable := by
  cases value with
  | string bytes =>
      cases written
      exact iff_of_true
        ⟨.string bytes, (decode_eq_ok_iff rfl _).mpr rfl, rfl⟩ trivial
  | int n =>
      cases written
      exact iff_of_true
        ⟨.string (writeI64Bytes n), (decode_eq_ok_iff rfl _).mpr rfl, rfl⟩ trivial
  | list items =>
      cases written
      have ordered : (listRows items).Pairwise fun left right =>
          left.1 ≤ right.1 := by
        refine List.pairwise_map.mpr ?_
        have indices : (items.zipIdx.map Prod.snd).Pairwise (· < ·) := by
          rw [List.zipIdx_map_snd]
          exact List.pairwise_lt_range'
        exact (List.pairwise_map.mp indices).imp fun less =>
          Int.ofNat_le.mpr less.le
      have values : (listRows items).map Prod.snd = items := by
        rw [listRows, List.map_map]
        exact List.zipIdx_map_fst 0 items
      refine iff_of_true
        ⟨.list items, (decode_eq_ok_iff rfl _).mpr ?_, rfl⟩ trivial
      change Except.ok (some (Value.list (((listRows items).insertionSort
        fun left right => left.1 ≤ right.1).map Prod.snd))) = _
      rw [ordered.insertionSort_eq, values]
  | set items =>
      cases written
      have members : (∅ : ByteSet).insertMany
          ((items.toList.map fun item => (item, ())).map Prod.fst) = items := by
        rw [List.map_map]
        change (∅ : ByteSet).insertMany (items.toList.map id) = items
        rw [List.map_id]
        apply Std.ExtTreeSet.ext_mem
        intro member
        rw [Std.ExtTreeSet.mem_insertMany_list, List.contains_iff_mem,
          Std.ExtTreeSet.mem_toList]
        simp
      refine iff_of_true
        ⟨.set items, (decode_eq_ok_iff rfl _).mpr ?_, rfl⟩ trivial
      exact congrArg (fun items => Except.ok (some (Value.set items))) members
  | hash items =>
      cases written
      refine iff_of_true ⟨.hash (.map (collectMap items.iter)),
        (decode_eq_ok_iff rfl _).mpr rfl, fun field => ?_⟩ trivial
      apply Option.ext
      intro value
      rw [← HashStore.mem_iter]
      exact (lookup_collectMap items.iter items.iter_distinct field value).symm
  | zset items =>
      cases written
      rw [← zset_roundTrip]
      constructor
      · rintro ⟨loaded, decoded, agrees⟩
        obtain rfl := eq_of_agrees (by simp) rfl agrees
        have read := (decode_eq_ok_iff rfl _).mp decoded
        change (Except.map _ (Except.map collectMap _)) = _ at read
        revert read
        cases Except.map collectMap _ with
        | error reason => exact nofun
        | ok collected =>
            intro read
            cases read
            rfl
      · intro loaded
        refine ⟨.zset items, (decode_eq_ok_iff rfl _).mpr ?_, rfl⟩
        exact congrArg (Except.map fun items => some (Value.zset items)) loaded
  | stream items =>
      rw [encode] at written
      split at written
      · cases written
        rw [← groupEntries_sorted_eq_iff]
        constructor
        · rintro ⟨loaded, decoded, agrees⟩
          obtain rfl := eq_of_agrees (by simp) rfl agrees
          have read := (decode_eq_ok_iff rfl _).mp decoded
          simpa [decodeValue] using read
        · intro loaded
          refine ⟨.stream items, (decode_eq_ok_iff rfl _).mpr ?_, rfl⟩
          exact congrArg (fun items => Except.ok (some (Value.stream items))) loaded
      · cases written

/-- A persistable value can be written over any cell. -/
theorem encode_isSome
    (slice : Slice) (value : Value) (exp : Option UInt64)
    (persistable : value.Persistable) :
    (encode slice value exp).isSome := by
  cases value with
  | stream items =>
      have distinct : ((streamRows items).map Prod.fst).Nodup :=
        List.pairwise_map.mpr ((streamRows_ordered items persistable.1).imp
          fun ordered => ordered.2)
      rw [encode, if_pos distinct]
      rfl
  | _ => rfl

end LibsqlPersist
end Cache
end MuonJs
