import MuonJs.Cache.Commands

/-!
# SCAN

The cursor of `SCAN` is an offset into the list of live matching keys, which
every call computes and sorts anew.  A key that is there in all calls of a full
iteration is returned unless keys that sort before it go away between two calls
and move it to the left of the cursor.
-/

namespace MuonJs
namespace Cache

/-! ## The keys of one call -/

/-- The live keys that match the pattern, in the order of `keys_matching`; the
shard of index `i` is read at `clock i`. -/
def matchingKeys (clock : ℕ → UInt64) (pattern : Bytes) (db : Db) : List Bytes :=
  sortBytes ((List.finRange numShards).map fun index =>
    Shard.matchingKeys pattern
      (Shard.purgeExpiredAll (clock index.val) (db.shards index))).flatten

theorem perm_sortBytes (items : List Bytes) : (sortBytes items).Perm items :=
  List.perm_insertionSort _ items

theorem mem_sortBytes {items : List Bytes} {item : Bytes} :
    item ∈ sortBytes items ↔ item ∈ items :=
  (perm_sortBytes items).mem_iff

theorem mem_shard_matchingKeys
    (pattern key : Bytes) (now : UInt64) (db : Db) (index : Fin numShards) :
    key ∈ Shard.matchingKeys pattern (Shard.purgeExpiredAll now (db.shards index)) ↔
      Glob.globMatch key pattern = true ∧ shardIndex key = index ∧
        (db.visible now key).isSome = true := by
  rw [Shard.matchingKeys, mem_sortBytes, List.mem_filter, Std.ExtTreeMap.mem_keys,
    Std.ExtTreeMap.mem_iff_isSome_getElem?, Shard.lookup_purgeExpiredAll,
    Db.shards_getElem?, and_comm]
  apply and_congr_right'
  split
  · rename_i own
    rw [and_iff_right own]
    rfl
  · rename_i foreign
    simp [foreign]

/-- A key is listed exactly when it matches and is live as its shard is read. -/
theorem mem_matchingKeys
    (clock : ℕ → UInt64) (pattern key : Bytes) (db : Db) :
    key ∈ matchingKeys clock pattern db ↔
      Glob.globMatch key pattern = true ∧
        (db.visible (clock (shardIndex key).val) key).isSome = true := by
  rw [matchingKeys, mem_sortBytes, List.mem_flatten]
  constructor
  · rintro ⟨keys, isShard, isKey⟩
    obtain ⟨index, -, rfl⟩ := List.mem_map.mp isShard
    obtain ⟨isMatch, rfl, isLive⟩ :=
      (mem_shard_matchingKeys pattern key _ db index).mp isKey
    exact ⟨isMatch, isLive⟩
  · rintro ⟨isMatch, isLive⟩
    refine ⟨_, List.mem_map.mpr ⟨shardIndex key, List.mem_finRange _, rfl⟩, ?_⟩
    exact (mem_shard_matchingKeys pattern key _ db _).mpr ⟨isMatch, rfl, isLive⟩

/-- `Vec::sort` sorts. -/
theorem sortBytes_pairwise (items : List Bytes) :
    (sortBytes items).Pairwise fun left right => compare left right ≠ .gt := by
  have total : Std.Total fun left right : Bytes => compare left right ≠ .gt := by
    constructor
    intro left right
    cases order : compare left right with
    | lt => exact .inl nofun
    | eq => exact .inl nofun
    | gt =>
        rw [Std.OrientedCmp.gt_iff_lt] at order
        rw [order]
        exact .inr nofun
  have transitive : IsTrans Bytes fun left right => compare left right ≠ .gt := by
    constructor
    intro first second third left right
    exact Ordering.isLE_iff_ne_gt.mp (Std.TransCmp.isLE_trans
      (Ordering.isLE_iff_ne_gt.mpr left) (Ordering.isLE_iff_ne_gt.mpr right))
  exact List.pairwise_insertionSort _ items

theorem matchingKeys_nodup (clock : ℕ → UInt64) (pattern : Bytes) (db : Db) :
    (matchingKeys clock pattern db).Nodup := by
  rw [matchingKeys, (perm_sortBytes _).nodup_iff, List.nodup_flatten]
  constructor
  · rintro keys isShard
    obtain ⟨index, -, rfl⟩ := List.mem_map.mp isShard
    rw [Shard.matchingKeys, (perm_sortBytes _).nodup_iff]
    exact Std.ExtTreeMap.nodup_keys.filter _
  · rw [List.pairwise_map]
    refine (List.nodup_finRange numShards).imp fun different key inLeft inRight => ?_
    rw [mem_shard_matchingKeys] at inLeft inRight
    exact different (inLeft.2.1.symm.trans inRight.2.1)

/-- Distinct sorted keys are listed in this order. -/
theorem matchingKeys_eq
    {clock : ℕ → UInt64} {pattern : Bytes} {db : Db} {keys : List Bytes}
    (sorted : keys.Pairwise fun left right => compare left right = .lt)
    (isKey : ∀ key, key ∈ keys ↔ key ∈ matchingKeys clock pattern db) :
    matchingKeys clock pattern db = keys := by
  have distinct : keys.Nodup := by
    refine sorted.imp fun {left right} less same => ?_
    have equal : compare left right = .eq :=
      Std.LawfulEqCmp.compare_eq_iff_eq.mpr same
    rw [equal] at less
    cases less
  have perm : (matchingKeys clock pattern db).Perm keys :=
    (List.perm_ext_iff_of_nodup (matchingKeys_nodup clock pattern db) distinct).mpr
      fun key => (isKey key).symm
  refine perm.eq_of_pairwise (fun left right _ _ notAfter notBefore => ?_)
    (sortBytes_pairwise _) (sorted.imp fun less => by rw [less]; nofun)
  exact Std.LawfulEqCmp.compare_eq_iff_eq.mp (Std.OrientedCmp.isLE_antisymm
    (Ordering.isLE_iff_ne_gt.mpr notAfter) (Ordering.isLE_iff_ne_gt.mpr notBefore))

/-! ## Reading shard after shard -/

namespace ShardOp

/-- A method of one shard leaves the other shards alone. -/
theorem effect_shards_of_ne
    (now : UInt64) (op : ShardOp) {index other : Fin numShards}
    (different : other ≠ index) (db : Db) :
    (op.effect now index db).shards other = db.shards other := by
  cases op <;> exact if_neg different

end ShardOp

namespace Db

variable {clock : ℕ → UInt64}

/-- Methods of consecutive shards see each shard as it was at the start, at the
clock reading of its turn. -/
theorem run_shardsInTurn
    (op : ShardOp) (indices : List (Fin numShards)) (first : ℕ)
    (consecutive : indices.map Fin.val = List.range' first indices.length)
    (db : Db) (tick : ℕ) :
    ((shardsInTurn op indices).run (Program.timed Call.exec clock) (db, tick)).1 =
      indices.map fun index =>
        op.result (clock (tick + (index.val - first))) (db.shards index) := by
  induction indices generalizing first db tick with
  | nil => rfl
  | cons index indices ih =>
      rw [List.map_cons, List.length_cons, List.range'_succ,
        List.cons.injEq] at consecutive
      obtain ⟨isFirst, rest⟩ := consecutive
      rw [shardsInTurn_cons, Program.run_call, Program.run_bind]
      change op.result (clock tick) (db.shards index) ::
        ((shardsInTurn op indices).run (Program.timed Call.exec clock)
          (op.effect (clock tick) index db, tick + 1)).1 = _
      rw [ih (first + 1) rest, List.map_cons, isFirst, Nat.sub_self,
        Nat.add_zero]
      congr 1
      apply List.map_congr_left
      intro other isOther
      have later : first + 1 ≤ other.val := by
        have inRange : other.val ∈ List.range' (first + 1) indices.length := by
          rw [← rest]
          exact List.mem_map_of_mem isOther
        exact (List.mem_range'_1.mp inRange).1
      have different : other ≠ index := by
        rintro rfl
        omega
      rw [ShardOp.effect_shards_of_ne _ _ different]
      congr 2
      omega

/-- `keys_matching` lists the live matching keys. -/
theorem run_keysMatching (pattern : Bytes) (db : Db) (tick : ℕ) :
    ((keysMatching pattern).run (Program.timed Call.exec clock) (db, tick)).1 =
      matchingKeys (fun index => clock (tick + index)) pattern db := by
  have consecutive : (List.finRange numShards).map Fin.val =
      List.range' 0 (List.finRange numShards).length := by
    rw [List.length_finRange, ← List.range_eq_range', List.map_coe_finRange_eq_range]
  unfold keysMatching eachShard
  rw [Program.run_bind, run_shardsInTurn _ _ 0 consecutive]
  rfl

end Db

namespace Handler

variable {clock : ℕ → UInt64}

/-- A handler runs a method of the database on its database. -/
theorem runFrom_db (method : Db.Method α) (state : HandlerState) (tick : ℕ) :
    (runFrom clock (db method) state tick).1 =
      (method.run (Program.timed Call.exec clock) (state.db, tick)).1 := by
  unfold db
  induction method generalizing state tick with
  | pure value => rfl
  | call request next ih => exact ih _ _ _

/-- What one call replies: the part of the list from the cursor on.  The
process ends when the cursor and the count together overflow. -/
theorem runChecked_scan
    {options : List Bytes} {pattern : Bytes} {count cursor : ℕ}
    (inRange : cursor < 2 ^ 64)
    (parsed : scanOptions (asBytes "*") 10 options = .ok (pattern, count))
    (state : HandlerState) :
    (runChecked clock (scan (natBytes cursor :: options)) state 0).map Prod.fst =
      let keys := matchingKeys clock pattern state.db
      let start := min cursor keys.length
      let stop := min ((start + count) % 2 ^ 64) keys.length
      if start ≤ stop then
        some (.array [.blob (natBytes (if keys.length ≤ stop then 0 else stop)),
          .blobs ((keys.take stop).drop start)])
      else none := by
  have listed : runChecked clock (db (Db.keysMatching pattern)) state 0 =
      some (runFrom clock (db (Db.keysMatching pattern)) state 0) := by
    apply runChecked_of_issues
    refine @db_issues _ (fun _ => True) _ (fun _ _ => rfl) _ ?_
    exact (Db.eachShard_issues _ fun _ => trivial).bind fun _ => trivial
  have isKeys : (runFrom clock (db (Db.keysMatching pattern)) state 0).1 =
      matchingKeys clock pattern state.db := by
    rw [runFrom_db, Db.run_keysMatching]
    simp only [Nat.zero_add]
  unfold scan
  dsimp only
  rw [parseUsize_natBytes inRange]
  dsimp only
  rw [parsed]
  dsimp only
  rw [runChecked_bind, listed, Option.bind_some, isKeys]
  unfold scanReply perform
  rw [Program.perform_bind, runChecked]
  dsimp only
  generalize min cursor (matchingKeys clock pattern state.db).length = start
  generalize min ((start + count) % 2 ^ 64)
    (matchingKeys clock pattern state.db).length = stop
  by_cases inside : start ≤ stop
  · rw [if_pos inside, if_neg (by simp [HandlerCall.fails, inside])]
    rfl
  · rw [if_neg inside, if_pos (by simpa [HandlerCall.fails] using inside)]
    rfl

theorem scanOptions_count_lt
    {options : List Bytes} {pattern pattern' : Bytes} {count count' : ℕ}
    (inRange : count < 2 ^ 64)
    (parsed : scanOptions pattern count options = .ok (pattern', count')) :
    count' < 2 ^ 64 := by
  fun_induction scanOptions pattern count options with
  | case1 pattern count =>
      cases parsed
      exact inRange
  | case2 => cases parsed
  | case3 pattern count option value rest isMatch ih => exact ih inRange parsed
  | case4 => cases parsed
  | case5 pattern count option value rest notMatch isCount number valid ih =>
      refine ih ?_ parsed
      obtain ⟨word, -, rfl⟩ := Option.map_eq_some_iff.mp valid
      exact word.toNat_lt
  | case6 => cases parsed

end Handler

/-! ## A full iteration -/

/-- The state in which one call of an iteration is made, with its clock and its
options. -/
structure ScanStep where
  state : HandlerState
  clock : ℕ → UInt64
  options : List Bytes

namespace ScanStep

/-- The reply to `SCAN` with the cursor, unless the process ends. -/
def reply (step : ScanStep) (context : HandlerContext) (cursor : Bytes) :
    Option RespValue :=
  (Handler.runChecked step.clock
    (Handler.handleCommand context .scan (cursor :: step.options)) step.state 0).map
      Prod.fst

/-- How many live keys that match the pattern are sorted before the key. -/
def position (step : ScanStep) (pattern key : Bytes) : ℕ :=
  (matchingKeys step.clock pattern step.state.db).idxOf key

end ScanStep

/-- The next cursor and the keys of a reply. -/
def scanPage : RespValue → Option (Bytes × List RespValue)
  | .array [.blob next, .array keys] => some (next, keys)
  | _ => none

/-- The keys returned by a full iteration: every call passes the cursor of the
last one, and only the last call returns the cursor `0`. -/
def fullScan (context : HandlerContext) (cursor : Bytes) :
    List ScanStep → Option (List RespValue)
  | [] => none
  | step :: steps =>
      ((step.reply context cursor).bind scanPage).bind fun (next, keys) =>
        if next = asBytes "0" then
          if steps.isEmpty then some keys else none
        else (fullScan context next steps).map fun others => keys ++ others

/-- The key is returned by the first call that the cursor does not pass by. -/
theorem mem_fullScan_from
    {context : HandlerContext} {pattern key : Bytes} {cursor : ℕ}
    (inRange : cursor < 2 ^ 64)
    {steps : List ScanStep} {returned : List RespValue}
    (full : fullScan context (natBytes cursor) steps = some returned)
    (counts : ∀ step ∈ steps, ∃ count, 1 ≤ count ∧
      Handler.scanOptions (asBytes "*") 10 step.options = .ok (pattern, count))
    (isMatch : Glob.globMatch key pattern = true)
    (isLive : ∀ step ∈ steps, ∀ tick,
      (step.state.db.visible (step.clock tick) key).isSome = true)
    (stays : steps.IsChain fun earlier later =>
      earlier.position pattern key ≤ later.position pattern key)
    (ahead : ∀ step ∈ steps.head?, cursor ≤ step.position pattern key) :
    .blob key ∈ returned := by
  induction steps generalizing cursor returned with
  | nil => cases full
  | cons step steps ih =>
      obtain ⟨count, positive, parsed⟩ := counts step List.mem_cons_self
      have countInRange := Handler.scanOptions_count_lt (by decide) parsed
      have isReply : step.reply context (natBytes cursor) = _ :=
        Handler.runChecked_scan inRange parsed step.state
      have isKey : key ∈ matchingKeys step.clock pattern step.state.db :=
        (mem_matchingKeys _ _ _ _).mpr
          ⟨isMatch, isLive step List.mem_cons_self _⟩
      have before : step.position pattern key <
          (matchingKeys step.clock pattern step.state.db).length :=
        List.idxOf_lt_length_of_mem isKey
      have atKey : (matchingKeys step.clock pattern step.state.db)[
          step.position pattern key]? = some key := by
        rw [List.getElem?_eq_getElem before]
        exact congrArg some (List.getElem_idxOf before)
      have reached : cursor ≤ step.position pattern key := ahead step rfl
      dsimp only at isReply
      generalize matchingKeys step.clock pattern step.state.db = keys at *
      rw [Nat.min_eq_left (reached.trans before.le)] at isReply
      rw [fullScan, isReply] at full
      by_cases inside : cursor ≤ min ((cursor + count) % 2 ^ 64) keys.length
      · rw [if_pos inside] at full
        simp only [Option.bind_some, scanPage, RespValue.blobs] at full
        generalize isStop : min ((cursor + count) % 2 ^ 64) keys.length = stop at *
        have inPage (returns : step.position pattern key < stop) :
            RespValue.blob key ∈ ((keys.take stop).drop cursor).map .blob := by
          apply List.mem_map_of_mem
          apply List.mem_of_getElem? (i := step.position pattern key - cursor)
          rw [List.getElem?_drop, Nat.add_sub_cancel' reached,
            List.getElem?_take_of_lt returns, atKey]
        by_cases returns : step.position pattern key < stop
        · generalize natBytes (if keys.length ≤ stop then 0 else stop) = next at full
          by_cases isLast : next = asBytes "0"
          · rw [if_pos isLast] at full
            split at full
            · cases full
              exact inPage returns
            · cases full
          · rw [if_neg isLast] at full
            obtain ⟨others, -, rfl⟩ := Option.map_eq_some_iff.mp full
            exact List.mem_append_left _ (inPage returns)
        · have more : ¬keys.length ≤ stop := by omega
          have wrapped : (cursor + count) % 2 ^ 64 = stop := by omega
          have positiveStop : stop ≠ 0 := by
            rintro rfl
            rw [Nat.le_zero.mp inside, Nat.zero_add,
              Nat.mod_eq_of_lt countInRange] at wrapped
            omega
          have notLast : natBytes stop ≠ asBytes "0" :=
            fun same => positiveStop (natBytes_injective same)
          rw [if_neg more, if_neg notLast] at full
          obtain ⟨others, rest, rfl⟩ := Option.map_eq_some_iff.mp full
          refine List.mem_append_right _ (ih (by omega) rest
            (fun later isLater => counts later (List.mem_cons_of_mem _ isLater))
            (fun later isLater => isLive later (List.mem_cons_of_mem _ isLater))
            stays.tail fun later isNext => ?_)
          have moves := (List.isChain_cons.mp stays).1 later isNext
          omega
      · rw [if_neg inside] at full
        cases full

/-- A full iteration returns every key that matches and is live in all calls,
when from each call to the next the number of live matching keys sorted before
it does not go down. -/
theorem mem_fullScan
    {context : HandlerContext} {pattern key : Bytes}
    {steps : List ScanStep} {returned : List RespValue}
    (full : fullScan context (asBytes "0") steps = some returned)
    (counts : ∀ step ∈ steps, ∃ count, 1 ≤ count ∧
      Handler.scanOptions (asBytes "*") 10 step.options = .ok (pattern, count))
    (isMatch : Glob.globMatch key pattern = true)
    (isLive : ∀ step ∈ steps, ∀ tick,
      (step.state.db.visible (step.clock tick) key).isSome = true)
    (stays : steps.IsChain fun earlier later =>
      earlier.position pattern key ≤ later.position pattern key) :
    .blob key ∈ returned :=
  @mem_fullScan_from context pattern key 0 (by decide) steps returned full counts
    isMatch isLive stays fun _ _ => Nat.zero_le _

theorem matchLoop_star
    (text : Bytes) (remaining : ℕ) :
    ∀ starTi, starTi + remaining = text.length →
      Glob.matchLoop text (asBytes "*") (some 1) starTi starTi 1 (le_refl _) =
        true := by
  induction remaining with
  | zero =>
      intro starTi isEnd
      rw [Glob.matchLoop, if_pos (by omega)]
      have moves : Glob.move text (asBytes "*") starTi 1 = .answer true := by
        rw [Glob.move, if_neg (by decide), if_pos (by omega)]
      split
      all_goals
        rename_i isMove
        rw [moves] at isMove
        cases isMove
      rfl
  | succ remaining ih =>
      intro starTi isEnd
      rw [Glob.matchLoop, if_pos (by omega)]
      have moves : Glob.move text (asBytes "*") starTi 1 = .mismatch := by
        rw [Glob.move, if_neg (by decide), if_neg (by omega)]
      split
      all_goals
        rename_i isMove
        rw [moves] at isMove
        cases isMove
      exact ih (starTi + 1) (by omega)

/-- The default pattern of `SCAN` matches every key. -/
theorem globMatch_star (text : Bytes) :
    Glob.globMatch text (asBytes "*") = true := by
  rw [Glob.globMatch, Glob.matchLoop, if_pos (by omega)]
  have moves : Glob.move text (asBytes "*") 0 0 = .star := by
    rw [Glob.move, if_pos (by decide), if_pos (by decide)]
  split
  all_goals
    rename_i isMove
    rw [moves] at isMove
    cases isMove
  exact matchLoop_star text text.length 0 (Nat.zero_add _)

/-- Databases with these keys and nothing else. -/
def withKeys (keys : List Bytes) : HandlerState where
  db := keys.foldl (fun db key => db.put key (some ⟨.int 1, none⟩)) Db.empty
  log := []
  scripts := fun _ => none

theorem visible_withKeys (keys : List Bytes) (key : Bytes) :
    ((withKeys keys).db.visible 0 key).isSome = true ↔ key ∈ keys := by
  have folded : ∀ (keys : List Bytes) (db : Db),
      ((keys.foldl (fun db key => db.put key (some ⟨.int 1, none⟩)) db).visible 0
        key).isSome = true ↔ key ∈ keys ∨ (db.visible 0 key).isSome = true := by
    intro keys
    induction keys with
    | nil => simp
    | cons first keys ih =>
        intro db
        rw [List.foldl_cons, ih, List.mem_cons, Db.visible, Db.visible,
          Db.lookup_put]
        by_cases same : first = key
        · rw [if_pos same]
          simp [same, Option.filter]
        · rw [if_neg same]
          simp [Ne.symm same]
  rw [withKeys, folded, Db.visible, Db.lookup_empty]
  simp

theorem matchingKeys_withKeys
    {keys : List Bytes}
    (sorted : keys.Pairwise fun left right => compare left right = .lt) :
    matchingKeys (fun _ => 0) (asBytes "*") (withKeys keys).db = keys := by
  apply matchingKeys_eq sorted
  intro key
  rw [mem_matchingKeys, visible_withKeys, and_iff_right (globMatch_star key)]

/-- One call with `COUNT 1` on a database with these keys. -/
def scanOne (keys : List Bytes) : ScanStep where
  state := withKeys keys
  clock := fun _ => 0
  options := [asBytes "COUNT", asBytes "1"]

theorem visible_scanOne {keys : List Bytes} {key : Bytes} (isKey : key ∈ keys)
    (tick : ℕ) :
    ((scanOne keys).state.db.visible ((scanOne keys).clock tick) key).isSome =
      true :=
  (visible_withKeys keys key).mpr isKey

theorem reply_scanOne
    (context : HandlerContext) {cursor : ℕ} (inRange : cursor < 2 ^ 64)
    {keys : List Bytes}
    (sorted : keys.Pairwise fun left right => compare left right = .lt) :
    (scanOne keys).reply context (natBytes cursor) =
      let start := min cursor keys.length
      let stop := min ((start + 1) % 2 ^ 64) keys.length
      if start ≤ stop then
        some (.array [.blob (natBytes (if keys.length ≤ stop then 0 else stop)),
          .blobs ((keys.take stop).drop start)])
      else none := by
  have isReply := @Handler.runChecked_scan (fun _ => 0) (scanOne keys).options
    (asBytes "*") 1 cursor inRange rfl (scanOne keys).state
  rw [show (scanOne keys).state.db = (withKeys keys).db from rfl,
    matchingKeys_withKeys sorted] at isReply
  exact isReply

/-- Two keys, returned by two calls. -/
def oneByOne : List ScanStep :=
  [scanOne [asBytes "a", asBytes "b"], scanOne [asBytes "a", asBytes "b"]]

theorem fullScan_oneByOne :
    fullScan ⟨none, false⟩ (asBytes "0") oneByOne =
      some [.blob (asBytes "a"), .blob (asBytes "b")] := by
  have first := @reply_scanOne ⟨none, false⟩ 0 (by decide)
    [asBytes "a", asBytes "b"] (by decide)
  have second := @reply_scanOne ⟨none, false⟩ 1 (by decide)
    [asBytes "a", asBytes "b"] (by decide)
  have rest : fullScan ⟨none, false⟩ (natBytes 1)
      [scanOne [asBytes "a", asBytes "b"]] = some [.blob (asBytes "b")] := by
    rw [fullScan, second]
    rfl
  rw [oneByOne, fullScan, show asBytes "0" = natBytes 0 from rfl, first]
  change (fullScan ⟨none, false⟩ (natBytes 1)
    [scanOne [asBytes "a", asBytes "b"]]).map
      (fun others => [.blob (asBytes "a")] ++ others) = _
  rw [rest]
  rfl

theorem mem_fullScan_oneByOne :
    ∃ returned, fullScan ⟨none, false⟩ (asBytes "0") oneByOne = some returned ∧
      .blob (asBytes "b") ∈ returned := by
  refine ⟨_, fullScan_oneByOne, @mem_fullScan ⟨none, false⟩ (asBytes "*")
    (asBytes "b") oneByOne _ fullScan_oneByOne ?_ (globMatch_star _) ?_ ?_⟩
  · intro step isStep
    obtain rfl | isStep := List.mem_cons.mp isStep
    · exact ⟨1, le_refl 1, rfl⟩
    · rw [List.mem_singleton.mp isStep]
      exact ⟨1, le_refl 1, rfl⟩
  · intro step isStep
    obtain rfl | isStep := List.mem_cons.mp isStep
    · exact visible_scanOne (List.mem_cons_of_mem _ List.mem_cons_self)
    · rw [List.mem_singleton.mp isStep]
      exact visible_scanOne (List.mem_cons_of_mem _ List.mem_cons_self)
  · exact List.isChain_cons_cons.mpr ⟨le_refl _, List.isChain_singleton _⟩

/-- Two keys, of which the first call returns one; then it is deleted. -/
def deleteReturned : List ScanStep :=
  [scanOne [asBytes "a", asBytes "b"], scanOne [asBytes "b"]]

theorem fullScan_deleteReturned :
    fullScan ⟨none, false⟩ (asBytes "0") deleteReturned =
      some [.blob (asBytes "a")] := by
  have first := @reply_scanOne ⟨none, false⟩ 0 (by decide)
    [asBytes "a", asBytes "b"] (by decide)
  have second := @reply_scanOne ⟨none, false⟩ 1 (by decide)
    [asBytes "b"] (by decide)
  have rest : fullScan ⟨none, false⟩ (natBytes 1) [scanOne [asBytes "b"]] =
      some [] := by
    rw [fullScan, second]
    rfl
  rw [deleteReturned, fullScan, show asBytes "0" = natBytes 0 from rfl, first]
  change (fullScan ⟨none, false⟩ (natBytes 1) [scanOne [asBytes "b"]]).map
    (fun others => [.blob (asBytes "a")] ++ others) = _
  rw [rest]
  rfl

/-- The deletion of a returned key hides the key that moves into its place. -/
theorem not_always_mem_fullScan :
    ¬∀ (context : HandlerContext) (pattern key : Bytes) (steps : List ScanStep)
      (returned : List RespValue),
      fullScan context (asBytes "0") steps = some returned →
      (∀ step ∈ steps, ∃ count, 1 ≤ count ∧
        Handler.scanOptions (asBytes "*") 10 step.options = .ok (pattern, count)) →
      Glob.globMatch key pattern = true →
      (∀ step ∈ steps, ∀ tick,
        (step.state.db.visible (step.clock tick) key).isSome = true) →
      .blob key ∈ returned := by
  intro always
  have isReturned := always ⟨none, false⟩ (asBytes "*") (asBytes "b")
    deleteReturned [.blob (asBytes "a")] fullScan_deleteReturned
    (fun step isStep => by
      obtain rfl | isStep := List.mem_cons.mp isStep
      · exact ⟨1, le_refl 1, rfl⟩
      · rw [List.mem_singleton.mp isStep]
        exact ⟨1, le_refl 1, rfl⟩)
    (globMatch_star _)
    (fun step isStep => by
      obtain rfl | isStep := List.mem_cons.mp isStep
      · exact visible_scanOne (List.mem_cons_of_mem _ List.mem_cons_self)
      · rw [List.mem_singleton.mp isStep]
        exact visible_scanOne List.mem_cons_self)
  have same := RespValue.blob.inj (List.mem_singleton.mp isReturned)
  revert same
  decide

end Cache
end MuonJs
