import MuonJs.Cache.Rows

/-!
# A snapshot and what is loaded from it

The runs of a load, and the round trip: a snapshot over any earlier tables and
a load into empty databases give back the live entries exactly when every live
value is persistable.
-/

namespace MuonJs
namespace Cache
namespace LibsqlPersist

/-! ## Runs of the load -/

section Load

variable {faults : ℕ → Fault}

/-- The session leaves the connection alone; a success it reports is the
expected answer, and without faults it gives the expected answer. -/
def Answers (faults : ℕ → Fault) (session : Session (Fallible α))
    (connection : Connection) (expected : Fallible α) : Prop :=
  ∀ tick, ∃ result tick',
    session.run (Statement.execAt faults) (connection, tick) =
        (result, connection, tick') ∧
      (∀ value, result = .ok value → expected = .ok value) ∧
      ((∀ i, faults i = none) → result = expected)

theorem Answers.pure (connection : Connection) (answer : Fallible α) :
    Answers faults (.pure answer) connection answer :=
  fun tick => ⟨answer, tick, rfl, fun _ same => same, fun _ => rfl⟩

theorem Answers.map
    {session : Session (Fallible α)} {connection : Connection}
    {expected : Fallible α}
    (answers : Answers faults session connection expected) (f : α → β) :
    Answers faults (session >>= fun result => .pure (result.map f))
      connection (expected.map f) := by
  intro tick
  obtain ⟨result, tick', ran, sound, complete⟩ := answers tick
  refine ⟨result.map f, tick', ?_, ?_, fun faultless => by
    rw [complete faultless]⟩
  · rw [Program.run_bind, ran]
    rfl
  · intro value mapped
    cases result with
    | error reason => cases mapped
    | ok found =>
        rw [sound found rfl]
        exact mapped

/-- A query whose rows are turned into an answer. -/
theorem Answers.query
    (connection : Connection) (statement : Statement)
    (rows : List Row) (read : List Row → Fallible α)
    (asCursor : statement.Result → Cursor Row)
    (delivers : ∀ fault, (asCursor (statement.exec fault connection).1,
      (statement.exec fault connection).2) = (.deliver fault rows, connection)) :
    Answers faults
      (Statement.perform statement >>= fun cursor =>
        .pure (if (asCursor cursor).failed then .error ()
          else read (asCursor cursor).rows))
      connection (read rows) := by
  intro tick
  rw [Program.run_bind, perform_run]
  have delivered := Prod.ext_iff.mp (delivers (faults tick))
  dsimp only at delivered
  rw [delivered.2, Program.run_pure, delivered.1]
  cases fault : faults tick with
  | some count =>
      refine ⟨.error (), tick + 1, rfl, nofun, fun faultless => ?_⟩
      rw [faultless tick] at fault
      cases fault
  | none => exact ⟨read rows, tick + 1, rfl, fun _ same => same, fun _ => rfl⟩

/-- Reading the value of a row answers with what its cell stands for. -/
theorem loadValue_answers (faults : ℕ → Fault)
    (cell : Cell) (row : KvRow) (connection : Connection) :
    Answers faults (loadValue cell row) connection
      (decodeValue row (connection.current.slice cell)) := by
  unfold loadValue decodeValue
  split
  · exact .pure _ _
  · split
    · exact (Answers.query connection (.selectList cell) _
        (fun rows => .ok (rows.map Prod.snd)) id fun _ => rfl).map _
    · split
      · exact (Answers.query connection (.selectSet cell) _
          (fun rows => .ok ((∅ : ByteSet).insertMany rows)) id fun _ => rfl).map _
      · split
        · exact (Answers.query connection (.selectHash cell) _
            (fun rows => .ok (HashStore.map (collectMap rows))) id
          fun _ => rfl).map _
        · split
          · exact (Answers.query connection (.selectZset cell) _
              (fun rows => (rows.mapM readScore).map collectMap) id
              fun _ => rfl).map _
          · split
            · exact (Answers.query connection (.selectStream cell) _
                (fun rows => .ok (groupEntries [] none [] rows)) id
                fun _ => rfl).map _
            · exact .pure _ _

theorem dbOf_cast {n : ℕ} (idx : Fin n) : dbOf n (idx.val : Int) = some idx := by
  unfold dbOf
  rw [dif_pos ⟨Int.natCast_nonneg _, by simp⟩]
  simp

theorem eq_of_dbOf {n : ℕ} {dbIdx : Int} {idx : Fin n}
    (found : dbOf n dbIdx = some idx) :
    dbIdx = (idx.val : Int) := by
  unfold dbOf at found
  split at found
  case isTrue inRange =>
    cases found
    exact (Int.toNat_of_nonneg inRange.1).symm
  case isFalse outside => cases found

theorem lookup_dbsSet
    (dbs : Dbs n) (idx other : Fin n) (key probe : Bytes)
    (value : Value) (exp : Option UInt64) :
    ((Dbs.set dbs idx key value exp) other).lookup probe =
      if idx = other ∧ key = probe then some ⟨value, exp⟩
      else (dbs other).lookup probe := by
  unfold Dbs.set
  by_cases same : idx = other
  · subst same
    rw [Function.update_self, Db.lookup_access]
    by_cases sameKey : key = probe
    · rw [if_pos sameKey, if_pos ⟨rfl, sameKey⟩]
      rfl
    · rw [if_neg sameKey, if_neg fun both => sameKey both.2]
  · rw [Function.update_of_ne (Ne.symm same), if_neg fun both => same both.1]

/-- The entry under a key after its row has been read over the entry that was
there. -/
def loadedOver (row : KvRow) (value : Option Value) (old : Option Entry) :
    Option Entry :=
  match value with
  | some value => some ⟨value, row.expiresAtMs.map Int64.toUInt64⟩
  | none => old

/-- Reading all rows: a reported success means that every key of the databases
holds what its row stands for, or what it held before if it has no row. -/
theorem loadRows_run (faults : ℕ → Fault)
    (connection : Connection) (failed : Bool)
    (rows : List (Cell × KvRow)) (distinct : (rows.map Prod.fst).Nodup)
    (dbs : Dbs n) (tick : ℕ) :
    ∃ result dbs' tick',
      (loadRows failed dbs rows).run (Statement.execAt faults)
          (connection, tick) = ((result, dbs'), connection, tick') ∧
        (result = .ok () → failed = false ∧ ∀ (idx : Fin n) (key : Bytes),
          (∀ row, (((idx.val : Int), key), row) ∈ rows → ∃ value,
            decodeValue row (connection.current.slice ((idx.val : Int), key)) =
                .ok value ∧
              (dbs' idx).lookup key =
                loadedOver row value ((dbs idx).lookup key)) ∧
          (((idx.val : Int), key) ∉ rows.map Prod.fst →
            (dbs' idx).lookup key = (dbs idx).lookup key)) ∧
        ((∀ i, faults i = none) → failed = false →
          (∀ (idx : Fin n) (key : Bytes) (row : KvRow),
            (((idx.val : Int), key), row) ∈ rows → ∃ value,
              decodeValue row (connection.current.slice ((idx.val : Int), key)) =
                .ok value) →
          result = .ok ()) := by
  induction rows generalizing dbs tick with
  | nil =>
      refine ⟨if failed then .error () else .ok (), dbs, tick, rfl, ?_, ?_⟩
      · cases failed with
        | true => nofun
        | false => exact fun _ => ⟨rfl, fun idx key => ⟨nofun, fun _ => rfl⟩⟩
      · rintro - rfl -
        rfl
  | cons pair rows ih =>
      obtain ⟨⟨dbIdx, rowKey⟩, row⟩ := pair
      rw [List.map_cons, List.nodup_cons] at distinct
      cases inRange : dbOf n dbIdx with
      | none =>
          obtain ⟨result, dbs', tick', ran, sound, complete⟩ :=
            ih distinct.2 dbs tick
          have outside : ∀ (idx : Fin n) (key : Bytes),
              ((idx.val : Int), key) ≠ (dbIdx, rowKey) := by
            intro idx key same
            cases same
            rw [dbOf_cast] at inRange
            cases inRange
          refine ⟨result, dbs', tick', ?_, fun isOk => ?_,
            fun faultless notFailed readable => ?_⟩
          · rw [loadRows, inRange]
            exact ran
          · obtain ⟨notFailed, each⟩ := sound isOk
            refine ⟨notFailed, fun idx key => ⟨fun other present => ?_,
              fun absent => ?_⟩⟩
            · rcases List.mem_cons.mp present with first | later
              · exact absurd (Prod.ext_iff.mp first).1 (outside idx key)
              · exact (each idx key).1 other later
            · exact (each idx key).2 fun later =>
                absent (List.mem_cons_of_mem _ later)
          · exact complete faultless notFailed fun idx key other present =>
              readable idx key other (List.mem_cons_of_mem _ present)
      | some ownIdx =>
          obtain rfl := eq_of_dbOf inRange
          obtain ⟨answer, tick', answered, soundAnswer, completeAnswer⟩ :=
            loadValue_answers faults ((ownIdx.val : Int), rowKey) row
              connection tick
          match answer with
          | .error () =>
              refine ⟨.error (), dbs, tick', ?_, nofun,
                fun faultless _ readable => ?_⟩
              · rw [loadRows, inRange]
                dsimp only
                rw [Program.run_bind, answered]
                rfl
              obtain ⟨value, isValue⟩ :=
                readable ownIdx rowKey row List.mem_cons_self
              rw [← completeAnswer faultless] at isValue
              cases isValue
          | .ok value =>
              have isValue := soundAnswer value rfl
              let next : Dbs n := match value with
                | none => dbs
                | some value => Dbs.set dbs ownIdx rowKey value
                    (row.expiresAtMs.map Int64.toUInt64)
              have nextLookup : ∀ (idx : Fin n) (key : Bytes),
                  (next idx).lookup key =
                    if ownIdx = idx ∧ rowKey = key then
                      loadedOver row value ((dbs idx).lookup key)
                    else (dbs idx).lookup key := by
                intro idx key
                cases value with
                | none => exact (ite_self _).symm
                | some value => exact lookup_dbsSet dbs ownIdx idx rowKey key value _
              obtain ⟨result, dbs', tick'', ran, sound, complete⟩ :=
                ih distinct.2 next tick'
              refine ⟨result, dbs', tick'', ?_, fun isOk => ?_,
                fun faultless notFailed readable => ?_⟩
              · rw [loadRows, inRange]
                dsimp only
                rw [Program.run_bind, answered]
                cases value with
                | none => exact ran
                | some value => exact ran
              · obtain ⟨notFailed, each⟩ := sound isOk
                refine ⟨notFailed, fun idx key => ⟨fun other present => ?_,
                  fun absent => ?_⟩⟩
                · rcases List.mem_cons.mp present with first | later
                  · obtain ⟨sameCell, rfl⟩ := Prod.ext_iff.mp first
                    obtain rfl : idx = ownIdx :=
                      Fin.ext (Int.ofNat.inj (Prod.ext_iff.mp sameCell).1)
                    obtain rfl : key = rowKey := (Prod.ext_iff.mp sameCell).2
                    refine ⟨value, isValue, ?_⟩
                    rw [(each idx key).2 distinct.1, nextLookup, if_pos ⟨rfl, rfl⟩]
                  · obtain ⟨laterValue, isLater, lookup⟩ := (each idx key).1 other later
                    refine ⟨laterValue, isLater, ?_⟩
                    have different : ¬(ownIdx = idx ∧ rowKey = key) := by
                      rintro ⟨rfl, rfl⟩
                      exact distinct.1 (List.mem_map.mpr ⟨_, later, rfl⟩)
                    rw [lookup, nextLookup, if_neg different]
                · rw [List.map_cons, List.mem_cons, not_or] at absent
                  have different : ¬(ownIdx = idx ∧ rowKey = key) := by
                    rintro ⟨rfl, rfl⟩
                    exact absent.1 rfl
                  rw [(each idx key).2 absent.2, nextLookup, if_neg different]
              · exact complete faultless notFailed fun idx key other present =>
                  readable idx key other (List.mem_cons_of_mem _ present)

/-- Loading into empty databases: a reported success means that every key of
the databases holds what its cell stands for; without faults the load succeeds
whenever every cell can be read. -/
theorem load_run (faults : ℕ → Fault) (n : ℕ) (connection : Connection) (tick : ℕ) :
    ∃ result, ∃ dbs' : Dbs n, ∃ tick',
      (load fun _ : Fin n => Db.empty).run (Statement.execAt faults)
          (connection, tick) = ((result, dbs'), connection, tick') ∧
        (result = .ok () → ∀ (idx : Fin n) (key : Bytes),
          decode (connection.current.slice ((idx.val : Int), key)) =
            .ok ((dbs' idx).lookup key)) ∧
        ((∀ i, faults i = none) →
          (∀ (idx : Fin n) (key : Bytes), ∃ entry,
            decode (connection.current.slice ((idx.val : Int), key)) =
              .ok entry) →
          result = .ok ()) := by
  unfold load
  rw [Program.run_bind, perform_run]
  have rowStored : ∀ (cell : Cell) (row : KvRow),
      (cell, row) ∈ connection.current.kv.rows ↔
        (connection.current.slice cell).kv = some row :=
    fun cell row => connection.current.kv.mem_rows_iff cell row
  have readRow : ∀ (cell : Cell) (row : KvRow),
      (connection.current.slice cell).kv = some row →
      decode (connection.current.slice cell) =
        (decodeValue row (connection.current.slice cell)).map fun value =>
          loadedOver row value none := by
    intro cell row stored
    rw [decode, stored]
    refine congrArg (fun read => Except.map read _) (funext fun value => ?_)
    cases value <;> rfl
  cases fault : faults tick with
  | some count =>
      obtain ⟨result, dbs', tick', ran, sound, -⟩ := loadRows_run faults
        connection true
        (connection.current.kv.rows.take count)
        (connection.current.kv.distinct.sublist
          ((List.take_sublist _ _).map Prod.fst))
        (fun _ : Fin n => Db.empty) (tick + 1)
      refine ⟨result, dbs', tick', ran, fun isOk => ?_, fun faultless => ?_⟩
      · cases (sound isOk).1
      · rw [faultless tick] at fault
        cases fault
  | none =>
      obtain ⟨result, dbs', tick', ran, sound, complete⟩ := loadRows_run faults
        connection false connection.current.kv.rows
        connection.current.kv.distinct (fun _ : Fin n => Db.empty) (tick + 1)
      refine ⟨result, dbs', tick', ran, fun isOk idx key => ?_,
        fun faultless readable => ?_⟩
      · obtain ⟨present, absent⟩ := (sound isOk).2 idx key
        cases stored : (connection.current.slice ((idx.val : Int), key)).kv with
        | none =>
            have noRow : ((idx.val : Int), key) ∉
                connection.current.kv.rows.map Prod.fst :=
              (connection.current.kv.find_eq_none_iff _).mp stored
            rw [absent noRow, Db.lookup_empty, decode, stored]
        | some row =>
            obtain ⟨value, isValue, lookup⟩ :=
              present row ((rowStored _ _).mpr stored)
            rw [readRow _ row stored, isValue, lookup, Db.lookup_empty]
            rfl
      · refine complete faultless rfl fun idx key row isRow => ?_
        obtain ⟨entry, decoded⟩ := readable idx key
        rw [readRow _ row ((rowStored _ _).mp isRow)] at decoded
        cases read : decodeValue row
            (connection.current.slice ((idx.val : Int), key)) with
        | error reason =>
            rw [read] at decoded
            cases decoded
        | ok value => exact ⟨value, rfl⟩

end Load

/-! ## The round trip -/

/-- A connection on which nothing fails. -/
def noFaults : ℕ → Fault := fun _ => none

/-- Entries with the same expiry and agreeing values. -/
def EntryAgrees (saved loaded : Entry) : Prop :=
  saved.expiresAt = loaded.expiresAt ∧ saved.value.agrees loaded.value

/-- A snapshot over the earlier tables and a load into as many empty databases
both succeed, and the loaded databases hold exactly the live keys, with the
same expiries and agreeing values. -/
def RoundTrips (now : UInt64) (dbs : Dbs n) (before : Tables) : Prop :=
  let saved := (snapshot now dbs).run (Statement.execAt noFaults)
    (⟨before, none⟩, 0)
  let loaded := (load fun _ : Fin n => Db.empty).run (Statement.execAt noFaults)
    saved.2
  saved.1 = .ok () ∧ loaded.1.1 = .ok () ∧
    ∀ (idx : Fin n) (key : Bytes),
      Option.Rel EntryAgrees ((dbs idx).visible now key)
        ((loaded.1.2 idx).lookup key)

/-- What a cell stands for after a successful snapshot. -/
theorem decode_snapshotOf
    {now : UInt64} {dbs : Dbs n} {before after : Tables}
    (snapshotOf : SnapshotOf now dbs before after)
    (idx : Fin n) (key : Bytes) :
    match (dbs idx).visible now key with
    | none => decode (after.slice ((idx.val : Int), key)) = .ok none
    | some entry =>
        (∃ loaded, decode (after.slice ((idx.val : Int), key)) =
            .ok (some ⟨loaded, entry.expiresAt⟩) ∧ entry.value.agrees loaded) ↔
          entry.value.Persistable := by
  cases visible : (dbs idx).visible now key with
  | none => rw [decode, snapshotOf.stale idx key visible]
  | some entry =>
      have written := snapshotOf.live idx key entry.value entry.expiresAt visible
      rw [applySlices_writesOf] at written
      exact decode_encode _ _ entry.value entry.expiresAt written

/-- Databases that come back hold only persistable live values. -/
theorem persistable_of_roundTrips
    {now : UInt64} {dbs : Dbs n} {before : Tables}
    (roundTrips : RoundTrips now dbs before)
    (idx : Fin n) (key : Bytes) (entry : Entry)
    (visible : (dbs idx).visible now key = some entry) :
    entry.value.Persistable := by
  obtain ⟨result, connection, tick, saved, saveSound, -, -⟩ :=
    snapshot_run noFaults now dbs before 0
  obtain ⟨loadResult, dbs', loadTick, loaded, loadSound, -⟩ :=
    load_run noFaults n connection tick
  unfold RoundTrips at roundTrips
  rw [saved] at roundTrips
  dsimp only at roundTrips
  rw [loaded] at roundTrips
  obtain ⟨saveOk, loadOk, agree⟩ := roundTrips
  obtain ⟨after, rfl, written⟩ := saveSound saveOk
  have atCell := decode_snapshotOf
    ((snapshotEffect_spec now dbs before).2 after written) idx key
  have sameEntry := agree idx key
  have decoded := loadSound loadOk idx key
  rw [visible] at atCell sameEntry
  refine atCell.mp ?_
  cases found : (dbs' idx).lookup key with
  | none =>
      rw [found] at sameEntry
      cases sameEntry
  | some loadedEntry =>
      rw [found] at sameEntry decoded
      cases sameEntry with
      | some agrees =>
          refine ⟨loadedEntry.value, ?_, agrees.2⟩
          rw [agrees.1]
          exact decoded

/-- Databases whose live values are persistable come back. -/
theorem roundTrips_of_persistable
    {now : UInt64} {dbs : Dbs n}
    (persistable : ∀ (idx : Fin n) (key : Bytes) (entry : Entry),
      (dbs idx).visible now key = some entry → entry.value.Persistable)
    (before : Tables) :
    RoundTrips now dbs before := by
  obtain ⟨result, connection, tick, saved, saveSound, -, saveComplete⟩ :=
    snapshot_run noFaults now dbs before 0
  obtain ⟨canWrite, effect⟩ := snapshotEffect_spec now dbs before
  obtain ⟨loadResult, dbs', loadTick, loaded, loadSound, loadComplete⟩ :=
    load_run noFaults n connection tick
  have possible : (snapshotEffect now dbs before).isSome := by
    refine canWrite.mpr fun idx key value exp visible => ?_
    rw [applySlices_writesOf]
    exact encode_isSome _ value exp (persistable idx key ⟨value, exp⟩ visible)
  have saveOk := saveComplete (fun _ => rfl) possible
  obtain ⟨after, rfl, written⟩ := saveSound saveOk
  have readable : ∀ (idx : Fin n) (key : Bytes), ∃ entry,
      decode (after.slice ((idx.val : Int), key)) = .ok entry ∧
        Option.Rel EntryAgrees ((dbs idx).visible now key) entry := by
    intro idx key
    have atCell := decode_snapshotOf (effect after written) idx key
    cases visible : (dbs idx).visible now key with
    | none =>
        rw [visible] at atCell
        exact ⟨none, atCell, .none⟩
    | some entry =>
        rw [visible] at atCell
        obtain ⟨value, decoded, agrees⟩ :=
          atCell.mpr (persistable idx key entry visible)
        exact ⟨_, decoded, .some ⟨rfl, agrees⟩⟩
  have loadOk := loadComplete (fun _ => rfl) fun idx key =>
    ⟨_, (readable idx key).choose_spec.1⟩
  unfold RoundTrips
  rw [saved]
  dsimp only
  rw [loaded]
  refine ⟨saveOk, loadOk, fun idx key => ?_⟩
  obtain ⟨entry, decoded, agrees⟩ := readable idx key
  have sameEntry := decoded.symm.trans (loadSound loadOk idx key)
  cases sameEntry
  exact agrees

/-- A snapshot and a load give back the databases exactly when every live value
is persistable. -/
theorem roundTrips_iff (now : UInt64) (dbs : Dbs n) (before : Tables) :
    RoundTrips now dbs before ↔
      ∀ (idx : Fin n) (key : Bytes) (entry : Entry),
        (dbs idx).visible now key = some entry → entry.value.Persistable :=
  ⟨fun roundTrips => persistable_of_roundTrips roundTrips,
    fun persistable => roundTrips_of_persistable persistable before⟩

/-- Methods at one key act on the entry under it. -/
theorem lookup_runAll_entry
    (now : UInt64) (key : Bytes) (ops : List EntryOp) (db : Db) :
    ((DbOp.runAll (ops.map (.entry key))).run (Call.exec now) db).2.lookup key =
      ops.foldl (fun entry op => (op.apply now entry).2) (db.lookup key) := by
  induction ops generalizing db with
  | nil => rfl
  | cons op ops ih =>
      simp only [List.map_cons, DbOp.runAll, Program.run_bind, Program.pure_eq,
        Program.run_pure, List.foldl_cons]
      rw [ih]
      have first : ((DbOp.entry key op).program.run (Call.exec now) db).2.lookup key =
          (op.apply now (db.lookup key)).2 :=
        (Db.lookup_access db key key _).trans (if_pos rfl)
      exact congrArg (fun entry => ops.foldl _ entry) first

/-- Ten entries added to one stream. -/
def tenEntries : List DbOp :=
  (List.replicate 10 (EntryOp.streamAdd "*" [(asBytes "f", asBytes "v")])).map
    (.entry (asBytes "s"))

/-- Not every database comes back: after ten additions to a stream the ID `10-0`
sorts before `2-0`. -/
theorem not_always_roundTrips :
    ¬∀ ops : List DbOp, RoundTrips 0
      (fun _ : Fin 1 => ((DbOp.runAll ops).run (Call.exec 0) Db.empty).2)
      Tables.empty := by
  intro always
  have stored : ((DbOp.runAll tenEntries).run (Call.exec 0) Db.empty).2.lookup
      (asBytes "s") = some ⟨.stream ((List.range 10).map fun i =>
        (toString (i + 1) ++ "-0", [(asBytes "f", asBytes "v")])), none⟩ := by
    rw [tenEntries, lookup_runAll_entry, Db.lookup_empty]
    rfl
  have persistable := persistable_of_roundTrips (always tenEntries) 0
    (asBytes "s") _ (by rw [Db.visible, stored]; rfl)
  have increase : Value.IdsIncrease _ := persistable.1
  have lastTwo := List.pairwise_iff_getElem.mp increase 8 9 (by decide) (by decide)
    (by decide)
  revert lastTwo
  decide

end LibsqlPersist
end Cache
end MuonJs
