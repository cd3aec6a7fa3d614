import MuonJs.Cache.Percentiles

/-!
# Metrics of a run

The metrics of a `CoreExecutor` follow the commands since the last reset.  A snapshot is
right about all of them at any time, except that the window still holds what was recorded
in the second before the last command.
-/

namespace MuonJs
namespace Cache
namespace Core

/-! ## What a run does -/

/-- A command that was executed. -/
structure Record where
  /-- The time at which it was recorded. -/
  time : UInt64
  command : String
  latency : UInt32
  /-- The reply was not `ok`. -/
  isError : Bool

/-- The commands that a call executes, with its replies. -/
def Event.records (replies : List CoreResponse) : Event → List Record
  | .execute cmd clock => replies.map fun resp =>
      ⟨clock.recordUs, cmd.name,
        CoreMetrics.clampLatency (CoreMetrics.saturatingSub clock.endUs clock.startUs), !resp.ok⟩
  | .executeBatch cmds clock => (cmds.zip replies).map fun (cmd, resp) =>
      ⟨clock.recordUs, cmd.name,
        CoreMetrics.clampLatency
          (CoreMetrics.saturatingSub clock.endUs clock.startUs / UInt64.ofNat cmds.length),
        !resp.ok⟩
  | .setQueueDepth _ | .reset => []

/-- What a call adds to the commands since the last reset. -/
def Event.extend (past : List Record) (replies : List CoreResponse) : Event → List Record
  | .reset => []
  | event => past ++ event.records replies

/-- The commands executed since the last reset. -/
def history (core : CoreExecutor) (past : List Record) : List Event → List Record
  | [] => past
  | event :: events =>
      history (core.step event).2 (event.extend past (core.step event).1) events

/-- The clock does not go back, and a snapshot is taken at the time; a reset starts the
clock again. -/
def Ordered (time : UInt64) : UInt64 → List Event → Prop
  | last, [] => last ≤ time
  | last, .execute _ clock :: events | last, .executeBatch _ clock :: events =>
      last ≤ clock.startUs ∧ clock.startUs ≤ clock.endUs ∧ clock.endUs ≤ clock.recordUs ∧
        Ordered time clock.recordUs events
  | last, .setQueueDepth _ :: events => Ordered time last events
  | _, .reset :: events => Ordered time 0 events

/-- The number of commands counted under some name. -/
def mixTotal (mix : OrderedMap String UInt64) : ℕ :=
  (mix.entries.map fun entry => entry.2.toNat).sum

/-- The last latencies. -/
def lastLatencies (past : List Record) : List UInt32 :=
  (past.drop (past.length - 4096)).map Record.latency

/-- The commands recorded in the second before a time. -/
def recorded (past : List Record) (time : UInt64) : List Record :=
  past.filter fun record => time.toNat ≤ record.time.toNat + 1000000 ∧ record.time ≤ time

/-- A snapshot describes the commands at a time. -/
structure Describes (snapshot : CoreMetricsSnapshot) (past : List Record) (time : UInt64) : Prop where
  ops : snapshot.opsTotal.toNat = past.length
  mix : mixTotal snapshot.commandMix = past.length
  errors : snapshot.errorsTotal.toNat = past.countP Record.isError
  window : snapshot.opsWindow1s.toNat = (recorded past time).length
  ascending : snapshot.latencyP50Us ≤ snapshot.latencyP95Us ∧
    snapshot.latencyP95Us ≤ snapshot.latencyP99Us
  quantiles : ∃ sorted : List UInt32, sorted.Perm (lastLatencies past) ∧ sorted.Pairwise (· ≤ ·) ∧
    (past ≠ [] →
      sorted[rank sorted.length (1 / 2)]?.map UInt32.toUInt64 = some snapshot.latencyP50Us ∧
      sorted[rank sorted.length (95 / 100)]?.map UInt32.toUInt64 = some snapshot.latencyP95Us ∧
      sorted[rank sorted.length (99 / 100)]?.map UInt32.toUInt64 = some snapshot.latencyP99Us)

/-! ## One record -/

/-- The time of the last record. -/
def lastTime (past : List Record) : ℕ := (past.getLast?.map fun record => record.time.toNat).getD 0

/-- The metrics follow the records. -/
structure Tracks (metrics : CoreMetrics) (past : List Record) : Prop where
  ops : metrics.opsTotal = UInt64.ofNat past.length
  errors : metrics.errorsTotal = UInt64.ofNat (past.countP Record.isError)
  mix : past.length < 2 ^ 64 → mixTotal metrics.commandMix = past.length
  sorted : past.Pairwise fun first second => first.time ≤ second.time
  window : metrics.opTimestampsUs =
    (past.map Record.time).filter fun time => lastTime past ≤ time.toNat + 1000000
  latencies : metrics.latenciesUs = lastLatencies past

theorem Tracks.initial : Tracks .initial [] where
  ops := rfl
  errors := rfl
  mix := fun _ => rfl
  sorted := .nil
  window := rfl
  latencies := rfl

section Mix

variable (mix : OrderedMap String UInt64) (command : String) (value : UInt64)

theorem sum_overwrite (entries : List (String × UInt64)) {old : UInt64}
    (isOld : (entries.find? fun entry => entry.1 = command).map Prod.snd = some old) :
    ((OrderedMap.overwrite command value entries).map fun entry => entry.2.toNat).sum + old.toNat =
      (entries.map fun entry => entry.2.toNat).sum + value.toNat := by
  induction entries with
  | nil => cases isOld
  | cons entry entries ih =>
      rw [OrderedMap.overwrite]
      by_cases isCommand : entry.1 = command
      · rw [List.find?_cons_of_pos (by simpa using isCommand)] at isOld
        rw [if_pos isCommand, List.map_cons, List.sum_cons, List.map_cons, List.sum_cons,
          ← Option.some.inj isOld]
        dsimp only
        omega
      · rw [List.find?_cons_of_neg (by simpa using isCommand)] at isOld
        have isRest := ih isOld
        rw [if_neg isCommand, List.map_cons, List.sum_cons, List.map_cons, List.sum_cons]
        omega

theorem le_mixTotal {old : UInt64} (isOld : mix.get command = some old) :
    old.toNat ≤ mixTotal mix := by
  rw [OrderedMap.get] at isOld
  obtain ⟨entry, isFound, rfl⟩ := Option.map_eq_some_iff.mp isOld
  exact List.single_le_sum (fun _ _ => Nat.zero_le _) _
    (List.mem_map_of_mem (List.mem_of_find?_eq_some isFound))

/-- Counting a command adds one to the total. -/
theorem mixTotal_set (small : mixTotal mix + 1 < 2 ^ 64) :
    mixTotal (mix.set command ((mix.get command).getD 0 + 1)) = mixTotal mix + 1 := by
  cases isOld : mix.get command with
  | none =>
      rw [mixTotal, OrderedMap.entries_set_of_absent isOld, List.map_append, List.sum_append]
      rfl
  | some old =>
      have isLess := le_mixTotal mix command isOld
      have isNext : (old + 1).toNat = old.toNat + 1 := by
        rw [UInt64.toNat_add]
        exact Nat.mod_eq_of_lt (by change old.toNat + 1 < 2 ^ 64; omega)
      have isSum := sum_overwrite command (old + 1) mix.entries isOld
      rw [mixTotal, OrderedMap.entries_set_of_present (by rw [isOld]; exact Option.some_ne_none _),
        Option.getD_some, mixTotal]
      omega

end Mix

theorem dropSamples_eq (samples : List UInt32) :
    CoreMetrics.dropSamples samples = samples.drop (samples.length - 4096) := by
  induction samples with
  | nil => rfl
  | cons sample samples ih =>
      rw [CoreMetrics.dropSamples, maxLatencySamples]
      split
      case isTrue isLong =>
        rw [List.length_cons] at isLong ⊢
        rw [ih, show samples.length + 1 - 4096 = samples.length - 4096 + 1 by omega,
          List.drop_succ_cons]
      case isFalse isShort =>
        rw [show (sample :: samples).length - 4096 = 0 by omega, List.drop_zero]

/-- The last samples before and after one more. -/
theorem drop_samples_concat {samples : List UInt32} {count bound : ℕ} (positive : 0 < bound)
    (isCount : samples.length = count) (sample : UInt32) :
    (samples.drop (count - bound) ++ [sample]).drop (count - (count - bound) + [sample].length - bound) =
      (samples ++ [sample]).drop (count + [sample].length - bound) := by
  rw [List.length_singleton]
  by_cases isFull : bound ≤ count
  · rw [show count - (count - bound) + 1 - bound = 1 by omega,
      show count + 1 - bound = count - bound + 1 by omega,
      List.drop_append_of_le_length (by rw [List.length_drop]; omega), List.drop_drop,
      List.drop_append_of_le_length (by omega)]
  · rw [show count - bound = 0 by omega, List.drop_zero, Nat.sub_zero]

theorem lt_saturatingSub_iff (now time : UInt64) :
    (time < CoreMetrics.saturatingSub now 1000000) ↔ time.toNat + 1000000 < now.toNat := by
  have isSecond : UInt64.toNat 1000000 = 1000000 := rfl
  rw [CoreMetrics.saturatingSub]
  split
  case isTrue isSmall =>
    rw [UInt64.lt_iff_toNat_lt, isSecond] at isSmall
    rw [UInt64.lt_iff_toNat_lt]
    have isZero : UInt64.toNat 0 = 0 := rfl
    omega
  case isFalse isLarge =>
    rw [UInt64.lt_iff_toNat_lt, isSecond] at isLarge
    rw [UInt64.lt_iff_toNat_lt, UInt64.toNat_sub_of_le _ _ (by
      rw [UInt64.le_iff_toNat_le, isSecond]; omega), isSecond]
    omega

/-- On sorted times the front is dropped just as a filter drops. -/
theorem dropWhile_eq_filter {times : List UInt64} (sorted : times.Pairwise (· ≤ ·))
    (cutoff : UInt64) :
    (times.dropWhile fun time => time < cutoff) = times.filter fun time => !(time < cutoff) := by
  induction times with
  | nil => rfl
  | cons time times ih =>
      rw [List.pairwise_cons] at sorted
      by_cases isOld : time < cutoff
      · rw [List.dropWhile_cons_of_pos (by simpa using isOld),
          List.filter_cons_of_neg (by simpa using isOld), ih sorted.2]
      · have allNew : ∀ other ∈ time :: times, (!decide (other < cutoff)) = true := by
          intro other isOther
          rw [Bool.not_eq_true', decide_eq_false_iff_not, UInt64.not_lt]
          obtain rfl | isRest := List.mem_cons.mp isOther
          · exact UInt64.not_lt.mp isOld
          · exact UInt64.le_trans (UInt64.not_lt.mp isOld) (sorted.1 other isRest)
        rw [List.dropWhile_cons_of_neg (by simpa using isOld), List.filter_eq_self.mpr allNew]

theorem lastTime_le {past : List Record} {time : UInt64}
    (later : ∀ other ∈ past, other.time ≤ time) : lastTime past ≤ time.toNat := by
  rw [lastTime]
  cases isLast : past.getLast? with
  | none => exact Nat.zero_le _
  | some record => exact UInt64.le_iff_toNat_le.mp (later record (List.mem_of_getLast? isLast))

/-- A record keeps the metrics in step. -/
theorem Tracks.recordOp {metrics : CoreMetrics} {past : List Record} (tracks : Tracks metrics past)
    (record : Record) (latencyUs : UInt64)
    (isLatency : CoreMetrics.clampLatency latencyUs = record.latency)
    (later : ∀ other ∈ past, other.time ≤ record.time) :
    Tracks (metrics.recordOp record.time record.command latencyUs record.isError)
      (past ++ [record]) where
  ops := by
    rw [CoreMetrics.recordOp, tracks.ops, List.length_append, List.length_singleton,
      UInt64.ofNat_add]
    rfl
  errors := by
    rw [CoreMetrics.recordOp, tracks.errors, List.countP_append, List.countP_singleton]
    dsimp only
    split
    · rw [UInt64.ofNat_add]
      rfl
    · rfl
  mix := by
    intro isSmall
    rw [List.length_append, List.length_singleton] at isSmall ⊢
    have isMix := tracks.mix (by omega)
    rw [← isMix]
    exact mixTotal_set _ _ (by omega)
  sorted := by
    rw [List.pairwise_append]
    refine ⟨tracks.sorted, List.pairwise_singleton _ _, fun other isOther last isLast => ?_⟩
    rw [List.mem_singleton.mp isLast]
    exact later other isOther
  window := by
    have sorted : (metrics.opTimestampsUs ++ [record.time]).Pairwise (· ≤ ·) := by
      rw [tracks.window, List.pairwise_append]
      refine ⟨(List.pairwise_map.mpr tracks.sorted).filter _, List.pairwise_singleton _ _,
        fun time isTime last isLast => ?_⟩
      obtain ⟨other, isOther, rfl⟩ := List.mem_map.mp (List.mem_filter.mp isTime).1
      rw [List.mem_singleton.mp isLast]
      exact later other isOther
    have isLast : lastTime (past ++ [record]) = record.time.toNat := by
      rw [lastTime, List.getLast?_concat]
      rfl
    rw [CoreMetrics.recordOp]
    dsimp only
    rw [dropWhile_eq_filter sorted, tracks.window, List.filter_append, List.filter_filter,
      List.map_append, List.filter_append, isLast]
    congr 1
    · refine List.filter_congr fun time _ => ?_
      have isBefore := lastTime_le later
      rw [Bool.eq_iff_iff, Bool.and_eq_true, Bool.not_eq_true', decide_eq_false_iff_not,
        lt_saturatingSub_iff, decide_eq_true_iff, decide_eq_true_iff]
      omega
    · refine List.filter_congr fun time _ => ?_
      rw [Bool.eq_iff_iff, Bool.not_eq_true', decide_eq_false_iff_not, lt_saturatingSub_iff,
        decide_eq_true_iff]
      omega
  latencies := by
    rw [CoreMetrics.recordOp]
    dsimp only
    rw [dropSamples_eq, tracks.latencies, isLatency, lastLatencies, lastLatencies, List.map_drop,
      List.map_drop, List.map_append, List.length_append, List.length_append, List.length_drop,
      List.length_map]
    exact drop_samples_concat (by decide) (List.length_map _) record.latency

/-! ## Snapshots -/

/-- Filters of which one implies the other keep as much exactly when both keep the same. -/
theorem length_filter_eq_iff {α : Type} {wide narrow : α → Bool} {items : List α}
    (implies : ∀ item ∈ items, narrow item = true → wide item = true) :
    (items.filter wide).length = (items.filter narrow).length ↔
      ∀ item ∈ items, wide item = true → narrow item = true := by
  have isNarrow : items.filter narrow = (items.filter wide).filter narrow := by
    rw [List.filter_filter]
    refine List.filter_congr fun item isItem => ?_
    cases isKept : narrow item with
    | false => rfl
    | true => rw [implies item isItem isKept]; rfl
  rw [isNarrow, eq_comm, List.length_filter_eq_length_iff]
  exact ⟨fun kept item isItem isWide => kept item (List.mem_filter.mpr ⟨isItem, isWide⟩),
    fun kept item isItem => kept item (List.mem_filter.mp isItem).1 (List.mem_filter.mp isItem).2⟩

theorem sorted_mergeSort (samples : List UInt32) : samples.mergeSort.Pairwise (· ≤ ·) := by
  have sorted : (samples.mergeSort fun a b => decide (a ≤ b)).Pairwise
      fun a b => decide (a ≤ b) = true := List.pairwise_mergeSort
    (fun a b c isFirst isSecond => by
      rw [decide_eq_true_iff] at *
      exact UInt32.le_trans isFirst isSecond)
    (fun a b => by
      rw [Bool.or_eq_true, decide_eq_true_iff, decide_eq_true_iff]
      exact UInt32.le_total a b) samples
  exact sorted.imp fun isLess => of_decide_eq_true isLess

/-- A snapshot describes the commands exactly when no counter overflows and everything in
the window is less than a second old. -/
theorem snapshot_iff {metrics : CoreMetrics} {past : List Record} (tracks : Tracks metrics past)
    {time : UInt64} (before : ∀ record ∈ past, record.time ≤ time) :
    Describes metrics.snapshot past time ↔
      past.length < 2 ^ 64 ∧ ∀ record ∈ past, lastTime past ≤ record.time.toNat + 1000000 →
        time.toNat ≤ record.time.toNat + 1000000 := by
  have isLast := lastTime_le before
  have isWindow : metrics.opTimestampsUs.length =
      (past.filter fun record => lastTime past ≤ record.time.toNat + 1000000).length := by
    rw [tracks.window, List.filter_map, List.length_map]
    rfl
  have sameWindow : metrics.opTimestampsUs.length = (recorded past time).length ↔
      ∀ record ∈ past, lastTime past ≤ record.time.toNat + 1000000 →
        time.toNat ≤ record.time.toNat + 1000000 := by
    rw [isWindow, recorded, length_filter_eq_iff]
    · refine forall₂_congr fun record isRecord => ?_
      rw [decide_eq_true_iff, decide_eq_true_iff]
      exact imp_congr_right fun _ => and_iff_left (before record isRecord)
    · intro record _ isRecent
      rw [decide_eq_true_iff] at *
      exact isLast.trans isRecent.1
  have isCount (small : past.length < 2 ^ 64) :
      (UInt64.ofNat metrics.opTimestampsUs.length).toNat = metrics.opTimestampsUs.length := by
    refine UInt64.toNat_ofNat_of_lt' (lt_of_le_of_lt ?_ small)
    rw [isWindow]
    exact List.length_filter_le _ _
  constructor
  · intro describes
    have isOps := describes.ops
    have small : past.length < 2 ^ 64 := by
      rw [← isOps]
      exact UInt64.toNat_lt _
    have isRecorded := describes.window
    rw [CoreMetrics.snapshot, isCount small] at isRecorded
    exact ⟨small, sameWindow.mp isRecorded⟩
  · rintro ⟨small, fresh⟩
    have isPerm := List.mergeSort_perm metrics.latenciesUs fun a b => decide (a ≤ b)
    have sorted := sorted_mergeSort metrics.latenciesUs
    have isShort : metrics.latenciesUs.mergeSort.length ≤ 4096 := by
      rw [isPerm.length_eq, tracks.latencies, lastLatencies, List.length_map, List.length_drop]
      omega
    refine
      { ops := ?_
        mix := tracks.mix small
        errors := ?_
        window := (isCount small).trans (sameWindow.mpr fresh)
        ascending := ⟨percentile_le quantile_half quantile_95 (by norm_num) sorted isShort,
          percentile_le quantile_95 quantile_99 (by norm_num) sorted isShort⟩
        quantiles := ⟨_, isPerm.trans (.of_eq tracks.latencies), sorted, fun notEmpty => ?_⟩ }
    · exact (congrArg UInt64.toNat tracks.ops).trans (UInt64.toNat_ofNat_of_lt' small)
    · refine (congrArg UInt64.toNat tracks.errors).trans (UInt64.toNat_ofNat_of_lt' ?_)
      exact lt_of_le_of_lt List.countP_le_length small
    · have nonempty : metrics.latenciesUs.mergeSort ≠ [] := by
        rw [← List.length_pos_iff, isPerm.length_eq, tracks.latencies, lastLatencies,
          List.length_map, List.length_drop]
        have := List.length_pos_iff.mpr notEmpty
        omega
      have isHalf := percentile_eq quantile_half nonempty isShort
      have is95 := percentile_eq quantile_95 nonempty isShort
      have is99 := percentile_eq quantile_99 nonempty isShort
      push_cast at isHalf is95 is99
      exact ⟨isHalf, is95, is99⟩

/-! ## Whole runs -/

section Steps

variable {metrics : CoreMetrics} {past : List Record}

/-- The records of a batch. -/
theorem Tracks.recordAll (tracks : Tracks metrics past) (now perCmdUs : UInt64)
    (later : ∀ other ∈ past, other.time ≤ now) (names : List (String × Bool)) :
    Tracks (CoreExecutor.recordAll metrics now perCmdUs names)
      (past ++ names.map fun named =>
        ⟨now, named.1, CoreMetrics.clampLatency perCmdUs, named.2⟩) := by
  induction names generalizing metrics past with
  | nil =>
      rw [List.map_nil, List.append_nil]
      exact tracks
  | cons named names ih =>
      have isNext := tracks.recordOp ⟨now, named.1, CoreMetrics.clampLatency perCmdUs, named.2⟩
        perCmdUs rfl later
      have isAll := ih isNext fun other isOther => by
        obtain isPast | isNew := List.mem_append.mp isOther
        · exact later other isPast
        · rw [List.mem_singleton.mp isNew]
          exact UInt64.le_refl _
      rw [List.append_assoc, List.singleton_append] at isAll
      exact isAll

theorem innerAll_metrics (core : CoreExecutor) (now : UInt64) (cmds : List CoreCommand) :
    (core.innerAll now cmds).2.metrics = core.metrics := by
  induction cmds generalizing core with
  | nil => rfl
  | cons cmd cmds ih => exact ih (core.inner now cmd).2

/-- A command that is executed. -/
theorem tracks_execute {core : CoreExecutor} (tracks : Tracks core.metrics past)
    (cmd : CoreCommand) (clock : Clock) (later : ∀ other ∈ past, other.time ≤ clock.recordUs) :
    Tracks (core.step (.execute cmd clock)).2.metrics
        (Event.extend past (core.step (.execute cmd clock)).1 (.execute cmd clock)) ∧
      ∀ record ∈ Event.extend past (core.step (.execute cmd clock)).1 (.execute cmd clock),
        record.time ≤ clock.recordUs := by
  refine ⟨tracks.recordOp ⟨clock.recordUs, cmd.name, CoreMetrics.clampLatency
    (CoreMetrics.saturatingSub clock.endUs clock.startUs), !(core.inner clock.nowMs cmd).1.ok⟩
    (CoreMetrics.saturatingSub clock.endUs clock.startUs) rfl later, fun record isRecord => ?_⟩
  obtain isPast | isNew := List.mem_append.mp isRecord
  · exact later record isPast
  · rw [List.mem_singleton.mp isNew]
    exact UInt64.le_refl _

/-- Commands that are executed in a batch. -/
theorem tracks_executeBatch {core : CoreExecutor} (tracks : Tracks core.metrics past)
    (cmds : List CoreCommand) (clock : Clock)
    (later : ∀ other ∈ past, other.time ≤ clock.recordUs) :
    Tracks (core.step (.executeBatch cmds clock)).2.metrics
        (Event.extend past (core.step (.executeBatch cmds clock)).1 (.executeBatch cmds clock)) ∧
      ∀ record ∈ Event.extend past (core.step (.executeBatch cmds clock)).1
        (.executeBatch cmds clock), record.time ≤ clock.recordUs := by
  set first : CoreExecutor := { core with metrics := core.metrics.recordBatch cmds.length }
  have isFirst : Tracks (first.innerAll clock.nowMs cmds).2.metrics past := by
    rw [innerAll_metrics]
    change Tracks (core.metrics.recordBatch cmds.length) past
    rw [CoreMetrics.recordBatch]
    split
    · exact ⟨tracks.ops, tracks.errors, tracks.mix, tracks.sorted, tracks.window, tracks.latencies⟩
    · exact tracks
  have isAll := isFirst.recordAll clock.recordUs
    (if cmds.isEmpty then 0
      else CoreMetrics.saturatingSub clock.endUs clock.startUs / UInt64.ofNat cmds.length)
    later ((cmds.map CoreCommand.name).zip
      ((first.innerAll clock.nowMs cmds).1.map fun resp => !resp.ok))
  refine ⟨?_, fun record isRecord => ?_⟩
  · refine Eq.mp ?_ isAll
    refine congrArg (Tracks _) (congrArg (past ++ ·) ?_)
    cases cmds with
    | nil => rfl
    | cons cmd cmds =>
        rw [List.zip_map, List.map_map]
        rfl
  · obtain isPast | isNew := List.mem_append.mp isRecord
    · exact later record isPast
    · obtain ⟨pair, -, rfl⟩ := List.mem_map.mp isNew
      exact UInt64.le_refl _

/-- What a run does to the metrics. -/
theorem tracks_run {time last : UInt64} {core : CoreExecutor} (events : List Event)
    (ordered : Ordered time last events) (tracks : Tracks core.metrics past)
    (before : ∀ record ∈ past, record.time ≤ last) :
    Tracks (core.run events).metrics (history core past events) ∧
      ∀ record ∈ history core past events, record.time ≤ time := by
  have laterThan {clock : Clock} (isStart : last ≤ clock.startUs) (isEnd : clock.startUs ≤ clock.endUs)
      (isRecord : clock.endUs ≤ clock.recordUs) : last ≤ clock.recordUs :=
    UInt64.le_trans isStart (UInt64.le_trans isEnd isRecord)
  induction events generalizing core past last with
  | nil => exact ⟨tracks, fun record isRecord => UInt64.le_trans (before record isRecord) ordered⟩
  | cons event events ih =>
      cases event with
      | execute cmd clock =>
          obtain ⟨isStart, isEnd, isRecord, isRest⟩ := ordered
          obtain ⟨isNext, isBefore⟩ := tracks_execute tracks cmd clock fun other isOther =>
            UInt64.le_trans (before other isOther) (laterThan isStart isEnd isRecord)
          exact ih isRest isNext isBefore fun first second third =>
            UInt64.le_trans first (UInt64.le_trans second third)
      | executeBatch cmds clock =>
          obtain ⟨isStart, isEnd, isRecord, isRest⟩ := ordered
          obtain ⟨isNext, isBefore⟩ := tracks_executeBatch tracks cmds clock fun other isOther =>
            UInt64.le_trans (before other isOther) (laterThan isStart isEnd isRecord)
          exact ih isRest isNext isBefore fun first second third =>
            UInt64.le_trans first (UInt64.le_trans second third)
      | setQueueDepth depth =>
          have isNext : Tracks (core.setQueueDepth depth).metrics (past ++ []) := by
            rw [List.append_nil]
            exact ⟨tracks.ops, tracks.errors, tracks.mix, tracks.sorted, tracks.window,
              tracks.latencies⟩
          have isBefore : ∀ record ∈ past ++ [], record.time ≤ last := by
            rw [List.append_nil]
            exact before
          exact ih ordered isNext isBefore laterThan
      | reset =>
          exact ih ordered .initial (List.forall_mem_nil _) fun first second third =>
            UInt64.le_trans first (UInt64.le_trans second third)

end Steps

/-- In every run with a clock that does not go back, a snapshot describes the commands since
the last reset exactly when no counter overflows and everything recorded in the second before
the last command was recorded in the second before the snapshot. -/
theorem metrics_iff (databases : ℕ) (events : List Event) (time : UInt64)
    (ordered : Ordered time 0 events) :
    Describes ((CoreExecutor.new databases).run events).metrics.snapshot
        (history (.new databases) [] events) time ↔
      (history (.new databases) [] events).length < 2 ^ 64 ∧
        ∀ record ∈ history (.new databases) [] events,
          lastTime (history (.new databases) [] events) ≤ record.time.toNat + 1000000 →
            time.toNat ≤ record.time.toNat + 1000000 := by
  have isNew : Tracks (CoreExecutor.new databases).metrics [] := .initial
  obtain ⟨tracks, before⟩ := tracks_run events ordered isNew (List.forall_mem_nil _)
  exact snapshot_iff tracks before

/-- A command, and a snapshot two seconds later. -/
def lateSnapshot : List Event := [.execute (.set "k" "v") ⟨0, 0, 0, 0⟩]

/-- A command that lies two seconds back is still in the window. -/
theorem not_always_metrics :
    ¬∀ (databases : ℕ) (events : List Event) (time : UInt64), Ordered time 0 events →
      Describes ((CoreExecutor.new databases).run events).metrics.snapshot
        (history (.new databases) [] events) time := by
  intro always
  have ordered : Ordered 2000000 0 lateSnapshot := by
    rw [lateSnapshot, Ordered, Ordered]
    decide
  have isWindow := (always 1 lateSnapshot 2000000 ordered).window
  have isOne : (((CoreExecutor.new 1).run lateSnapshot).metrics.snapshot.opsWindow1s).toNat = 1 := rfl
  have isNone : (recorded (history (.new 1) [] lateSnapshot) 2000000).length = 0 := rfl
  rw [isOne, isNone] at isWindow
  cases isWindow

/-- A command, a batch of which the first and the last statement fail, and a depth. -/
def mixedRun : List Event :=
  [.execute (.set "k" "v") ⟨1, 2, 3, 0⟩,
    .executeBatch [.hget "k" "f", .get "k", .hincrby "k" "f" 1] ⟨4, 10, 10, 0⟩, .setQueueDepth 2]

/-- A snapshot behind commands of which some fail. -/
theorem metrics_iff_mixedRun :
    Describes ((CoreExecutor.new 1).run mixedRun).metrics.snapshot
      (history (.new 1) [] mixedRun) 20 := by
  have ordered : Ordered 20 0 mixedRun := by
    simp only [mixedRun, Ordered]
    decide
  refine (metrics_iff 1 mixedRun 20 ordered).mpr ⟨by decide +kernel, fun record _ _ => ?_⟩
  exact Nat.le_add_left_of_le (by decide)

end Core
end Cache
end MuonJs
