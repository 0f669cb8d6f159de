import MarketBenchmark.Benchmark.Admission
import MarketBenchmark.Foundation.Labels

/-!
# Outcomes are counted once

A publication counts the complete cohorts that no committed publication counted
before, and its commit marks exactly these.  The number of a cohort among the
complete cohorts of its coin, which the code does not keep, tells the cohorts
apart; a ledger of the numbers counted so far is kept in step with the marks.
-/

namespace MarketBenchmark

open Foundation.HashMaps
open Foundation.TimedRing
open Foundation.Runs
open Foundation.Labels

/-! ## The ledger of a ring -/

/-- The marks of a ring, of whose coin `complete` cohorts were committed, agree with
the numbers counted so far. -/
structure Accounted (cohorts : List CommittedCohort) (complete : Nat) (counted : List Nat) :
    Prop where
  distinct : (cohorts.map CommittedCohort.serial).Nodup
  bounded : ∀ cohort ∈ cohorts, cohort.serial ≤ complete
  once : counted.Nodup
  past : ∀ serial ∈ counted, serial ≤ complete
  marked : ∀ cohort ∈ cohorts, cohort.outcomeReported = true ↔ cohort.serial ∈ counted

section Accounted

variable {cohorts fewer : List CommittedCohort} {complete : Nat} {counted : List Nat}

theorem Accounted.empty : Accounted [] 0 [] :=
  ⟨List.nodup_nil, nofun, List.nodup_nil, nofun, nofun⟩

theorem Accounted.sublist (accounted : Accounted cohorts complete counted)
    (fewerOf : fewer.Sublist cohorts) : Accounted fewer complete counted where
  distinct := accounted.distinct.sublist (fewerOf.map _)
  bounded cohort member := accounted.bounded cohort (fewerOf.subset member)
  once := accounted.once
  past := accounted.past
  marked cohort member := accounted.marked cohort (fewerOf.subset member)

/-- A new cohort takes the next number and no mark. -/
theorem Accounted.insert (accounted : Accounted cohorts complete counted)
    {entry : CommittedCohort} (numbered : entry.serial = complete + 1)
    (unmarked : entry.outcomeReported = false) (stamp : CommittedCohort → Nat) (cap : Nat) :
    Accounted (insertCapped stamp cap cohorts entry) (complete + 1) counted := by
  suffices inserted : Accounted (insertInOrder stamp cohorts entry) (complete + 1) counted from
    inserted.sublist (insertCapped_sublist stamp cap cohorts entry)
  have rearranged := insertInOrder_perm stamp cohorts entry
  have fresh : ∀ serial, serial ≤ complete → entry.serial ≠ serial := by
    intro serial le same
    omega
  refine ⟨?_, ?_, accounted.once, fun serial member => ?_, ?_⟩
  · rw [(rearranged.map CommittedCohort.serial).nodup_iff, List.map_cons, List.nodup_cons]
    refine ⟨fun member => ?_, accounted.distinct⟩
    obtain ⟨cohort, isCohort, same⟩ := List.mem_map.mp member
    exact fresh cohort.serial (accounted.bounded cohort isCohort) same.symm
  · intro cohort member
    rcases List.mem_cons.mp (rearranged.mem_iff.mp member) with same | old
    · rw [same, numbered]
    · exact Nat.le_succ_of_le (accounted.bounded cohort old)
  · exact Nat.le_succ_of_le (accounted.past serial member)
  · intro cohort member
    rcases List.mem_cons.mp (rearranged.mem_iff.mp member) with same | old
    · rw [same, unmarked]
      refine ⟨nofun, fun isCounted => ?_⟩
      exact absurd rfl (fresh entry.serial (accounted.past entry.serial isCounted))
    · exact accounted.marked cohort old

/-- Marking the unreported cohorts enters their numbers, none of which was entered. -/
theorem Accounted.report (accounted : Accounted cohorts complete counted) (through : Nat) :
    Accounted
      (cohorts.map fun cohort =>
        if cohort.unreported through then { cohort with outcomeReported := true } else cohort)
      complete
      (counted ++ (cohorts.filter (CommittedCohort.unreported through)).map
        CommittedCohort.serial) := by
  have sameSerial : ∀ cohort : CommittedCohort,
      (if cohort.unreported through then { cohort with outcomeReported := true }
        else cohort).serial = cohort.serial := by
    intro cohort
    split <;> rfl
  have newOnes : ∀ serial,
      serial ∈ (cohorts.filter (CommittedCohort.unreported through)).map
        CommittedCohort.serial ↔
      ∃ cohort ∈ cohorts, cohort.unreported through = true ∧ cohort.serial = serial := by
    intro serial
    rw [List.mem_map]
    constructor
    · rintro ⟨cohort, member, same⟩
      obtain ⟨isCohort, unreported⟩ := List.mem_filter.mp member
      exact ⟨cohort, isCohort, unreported, same⟩
    · rintro ⟨cohort, isCohort, unreported, same⟩
      exact ⟨cohort, List.mem_filter.mpr ⟨isCohort, unreported⟩, same⟩
  refine ⟨?_, ?_, ?_, ?_, ?_⟩
  · rw [List.map_map, Function.comp_def]
    simp only [sameSerial]
    exact accounted.distinct
  · intro cohort member
    obtain ⟨earlier, isEarlier, same⟩ := List.mem_map.mp member
    rw [← same, sameSerial]
    exact accounted.bounded earlier isEarlier
  · refine accounted.once.append ?_ ?_
    · exact accounted.distinct.sublist (List.filter_sublist.map _)
    · intro serial isCounted isNew
      obtain ⟨cohort, isCohort, unreported, same⟩ := (newOnes serial).mp isNew
      have isMarked := (accounted.marked cohort isCohort).mpr (same.symm ▸ isCounted)
      unfold CommittedCohort.unreported at unreported
      rw [isMarked] at unreported
      cases unreported
  · intro serial member
    rcases List.mem_append.mp member with old | new
    · exact accounted.past serial old
    · obtain ⟨cohort, isCohort, _, same⟩ := (newOnes serial).mp new
      rw [← same]
      exact accounted.bounded cohort isCohort
  · intro cohort member
    obtain ⟨earlier, isEarlier, same⟩ := List.mem_map.mp member
    rw [← same, sameSerial, List.mem_append, newOnes]
    by_cases unreported : earlier.unreported through = true
    · rw [if_pos unreported]
      exact iff_of_true rfl (Or.inr ⟨earlier, isEarlier, unreported, rfl⟩)
    · rw [if_neg unreported, accounted.marked earlier isEarlier]
      refine ⟨Or.inl, fun either => either.elim id fun ⟨other, isOther, new, sameNumber⟩ => ?_⟩
      have sameCohort := List.inj_on_of_nodup_map accounted.distinct isOther isEarlier sameNumber
      rw [sameCohort] at new
      exact absurd new unreported

end Accounted

namespace Benchmark

variable {order : IterationOrder} {benchmark : Benchmark} {counted : String → List Nat}

/-- The ledger of every coin agrees with its ring. -/
def AccountedAll (benchmark : Benchmark) (counted : String → List Nat) : Prop :=
  ∀ coin, Accounted (benchmark.windows coin).cohorts (benchmark.windows coin).completeCohorts
    (counted coin)

/-- The ledger depends only on the ring and the number of complete cohorts. -/
theorem AccountedAll.of_same (accounted : benchmark.AccountedAll counted) {after : Benchmark}
    (sameCohorts : ∀ coin, (after.windows coin).cohorts = (benchmark.windows coin).cohorts)
    (sameComplete : ∀ coin,
      (after.windows coin).completeCohorts = (benchmark.windows coin).completeCohorts) :
    after.AccountedAll counted := by
  intro coin
  rw [sameCohorts, sameComplete]
  exact accounted coin

theorem AccountedAll.finalizeCandidate (accounted : benchmark.AccountedAll counted)
    (key : EventKey) (candidate : PendingCandidate) (now : Nat) (seen : Provider → Bool) :
    (benchmark.finalizeCandidate order key candidate now seen).AccountedAll counted := by
  intro coin
  rw [finalizeCandidate_windows order benchmark key candidate now seen CoinWindow.cohorts
    (fun _ _ => rfl), finalizeCandidate_windows order benchmark key candidate now seen
    CoinWindow.completeCohorts (fun _ _ => rfl)]
  by_cases own : coin = key.coin
  · rw [if_pos own, if_pos own, sampleWindow_cohorts, sampleWindow_completeCohorts]
    by_cases complete : candidate.complete benchmark.config.providers = true
    · rw [if_pos complete, if_pos complete]
      exact (accounted coin).insert rfl rfl _ _
    · rw [if_neg complete, if_neg complete]
      exact accounted coin
  · rw [if_neg own, if_neg own]
    exact accounted coin

theorem AccountedAll.settle (accounted : benchmark.AccountedAll counted) (key : BaseKey)
    (now : Nat) (evicted : Bool) :
    (benchmark.settle order key now evicted).AccountedAll counted := by
  cases found : benchmark.pending.lookup key with
  | none =>
      rw [settle_of_lookup_none order benchmark now evicted found]
      exact accounted
  | some pending =>
      refine settle_induction order benchmark (fun state => state.AccountedAll counted) found
        ?_ ?_
      · exact accounted.of_same
          (sealBase_windows order benchmark key pending now evicted CoinWindow.cohorts
            fun _ _ => rfl)
          (sealBase_windows order benchmark key pending now evicted CoinWindow.completeCohorts
            fun _ _ => rfl)
      · exact fun state content candidate _ _ held => held.finalizeCandidate _ candidate now _

theorem AccountedAll.markIntegrityLoss (accounted : benchmark.AccountedAll counted)
    (coin : String) (now : Nat) : (benchmark.markIntegrityLoss coin now).AccountedAll counted := by
  refine accounted.of_same (fun other => ?_) fun other => ?_
  · unfold Benchmark.markIntegrityLoss
    rw [updateWindow_windows]
    split <;> rfl
  · unfold Benchmark.markIntegrityLoss
    rw [updateWindow_windows]
    split <;> rfl

theorem AccountedAll.tick (accounted : benchmark.AccountedAll counted) (now : Nat) :
    (benchmark.tick order now).AccountedAll counted :=
  tick_induction order benchmark (fun state => state.AccountedAll counted) accounted
    (fun _ key _ _ held => held.settle key now false)
    (fun _ _ held coin => (held coin).sublist List.filter_sublist)

theorem AccountedAll.store (accounted : benchmark.AccountedAll counted) (event : MarketEvent) :
    (benchmark.store order event).AccountedAll counted := by
  have stored : ∀ cohort, (benchmark.withPending event.key.base cohort).AccountedAll counted :=
    fun _ => accounted
  have overflowed : ((benchmark.withPending event.key.base (benchmark.openedBase event)).bump
      event.key.coin event.provider { signatureOverflow := 1 }).AccountedAll counted := accounted
  rw [store_eq]
  split_ifs
  · exact overflowed.markIntegrityLoss event.key.coin event.received
  · exact accounted
  · exact (stored _).settle event.key.base event.received false
  · exact accounted

theorem AccountedAll.record (accounted : benchmark.AccountedAll counted) {event : ProbeEvent}
    {after : Benchmark} (recorded : benchmark.record order event = some after) :
    after.AccountedAll counted := by
  rcases record_cases order benchmark recorded with
    ⟨market, _, recorded⟩ | ⟨_, provider, coin, increment, _, _, same⟩
  · rcases recordMarket_cases order benchmark recorded with
      ⟨_, same⟩ | ⟨_, _, _, increment, _, same⟩ | ⟨_, _, same⟩
    · rw [same]
      exact accounted
    · rw [same]
      have rejected : (benchmark.bump market.key.coin market.provider increment).AccountedAll
          counted := accounted
      exact rejected.markIntegrityLoss market.key.coin market.received
    · rw [same]
      exact recordAccepted_induction order benchmark
        (fun state => state.AccountedAll counted) (fun state => state.AccountedAll counted)
        accounted (fun _ _ _ _ _ held => held.settle market.key.base market.received false)
        (fun _ oldest _ _ _ _ held => held.settle oldest market.received true)
        (fun _ _ _ held => held) (fun _ _ _ _ held => held.store market)
  · rw [same]
    exact accounted

/-- A commit enters what it marks. -/
theorem AccountedAll.withCommitted (accounted : benchmark.AccountedAll counted)
    (interval : PreparedOutcomeInterval) :
    (benchmark.withCommitted interval).AccountedAll fun coin =>
      counted coin ++ ((benchmark.windows coin).cohorts.filter
        (CommittedCohort.unreported interval.stop)).map CommittedCohort.serial :=
  fun coin => (accounted coin).report interval.stop

/-! ## Publication cycles -/

/-- What the event loop does: record, tick, or publish a window, which prepares the
publication and at once commits it when its batch was admitted or rejects it. -/
inductive Activity where
  | record (order : IterationOrder) (event : ProbeEvent)
  | tick (order : IterationOrder) (now : Nat)
  | publishWindow (order : IterationOrder) (now : Nat) (wallNowMs : Nat)
      (signals : RuntimeSignals) (clock : ClockHealthSnapshot) (accepted : Bool)

def Activity.calls : Activity → List Call
  | .record order event => [.record order event]
  | .tick order now => [.tick order now]
  | .publishWindow order now wallNowMs signals clock accepted =>
      [.windowEvents order now wallNowMs signals clock,
        if accepted then .commitPreparedPublication else .rejectPreparedPublication]

def act (benchmark : Benchmark) (activity : Activity) : Option Benchmark :=
  run step benchmark activity.calls

/-- A committed publication: its interval on the wall clock, its rows, and the numbers
of the cohorts of a coin that its rows count. -/
structure Publication where
  startMs : Nat
  stopMs : Nat
  rows : List LatencyWindowEvent
  counted : String → List Nat

/-- The numbers of the cohorts that `unreportedOutcomes` counts for a row of the coin. -/
def countedOutcomes (benchmark : Benchmark) (now : Nat) (coin : String) : List Nat :=
  if benchmark.config.hasProviderComparison then
    ((benchmark.windows coin).cohorts.filter (CommittedCohort.unreported now)).map
      CommittedCohort.serial
  else []

theorem countedOutcomes_of_compared {now : Nat} {coin : String}
    (compared : benchmark.config.hasProviderComparison = true) :
    benchmark.countedOutcomes now coin =
      ((benchmark.windows coin).cohorts.filter (CommittedCohort.unreported now)).map
        CommittedCohort.serial :=
  if_pos compared

/-- The publication that an activity commits, if it commits one. -/
def committed (benchmark : Benchmark) : Activity → List Publication
  | .publishWindow order now wallNowMs signals clock true =>
      match benchmark.windowEvents order now wallNowMs signals clock with
      | none => []
      | some (prepared, rows) =>
          let committed := prepared.commitPreparedPublication
          if committed.2 then
            [{ startMs := benchmark.outcomeCursorWallMs
               stopMs := committed.1.outcomeCursorWallMs
               rows := rows
               counted := prepared.countedOutcomes now }]
          else []
  | _ => []

/-- The state in which a publication is prepared. -/
def prepare (order : IterationOrder) (benchmark : Benchmark) (now : Nat) : Benchmark :=
  (benchmark.withPrepared none).tick order now

theorem prepare_cursor (now : Nat) :
    (benchmark.prepare order now).cursor = (benchmark.withPrepared none).cursor :=
  tick_cursor order (benchmark.withPrepared none) now

@[simp]
theorem prepare_config (now : Nat) : (benchmark.prepare order now).config = benchmark.config :=
  tick_config order (benchmark.withPrepared none) now

theorem prepare_outcomeCursor (now : Nat) :
    (benchmark.prepare order now).outcomeCursor = benchmark.outcomeCursor :=
  congrArg (fun cursor => cursor.2.1) (prepare_cursor now)

theorem prepare_outcomeCursorWallMs (now : Nat) :
    (benchmark.prepare order now).outcomeCursorWallMs = benchmark.outcomeCursorWallMs :=
  congrArg (fun cursor => cursor.2.2.1) (prepare_cursor now)

theorem prepare_prepared (now : Nat) :
    (benchmark.prepare order now).preparedOutcomeInterval = none :=
  congrArg (fun cursor => cursor.2.2.2.2) (prepare_cursor now)

theorem withPrepared_prepare (now : Nat) :
    (benchmark.prepare order now).withPrepared none = benchmark.prepare order now := by
  have none : (benchmark.prepare order now).preparedOutcomeInterval = none := prepare_prepared now
  unfold withPrepared
  rw [← none]

section Cycle

variable {now wallNowMs : Nat} {signals : RuntimeSignals} {clock : ClockHealthSnapshot}

/-- The wall time up to which a cycle publishes. -/
def cycleEndMs (benchmark : Benchmark) (wallNowMs : Nat) : Nat :=
  alignedWindowEndMs wallNowMs (asMillis benchmark.config.publishInterval)

/-- The rows of a publication prepared in a state. -/
def preparedRows (benchmark : Benchmark) (now wallNowMs wallMs : Nat) (signals : RuntimeSignals)
    (clock : ClockHealthSnapshot) : List LatencyWindowEvent :=
  benchmark.config.coins.flatMap fun coin =>
    benchmark.config.providers.map fun provider =>
      benchmark.windowEvent now wallNowMs wallMs signals (clock.assess wallNowMs) coin provider

theorem windowEvents_eq :
    benchmark.windowEvents order now wallNowMs signals clock =
      if asMillis benchmark.config.publishInterval = 0 then none
      else if benchmark.cycleEndMs wallNowMs ≤
            (benchmark.prepare order now).outcomeCursorWallMs ∨
          now ≤ (benchmark.prepare order now).outcomeCursor then
        some (benchmark.prepare order now, [])
      else
        some ((benchmark.prepare order now).withPrepared
            (some { stop := now, stopWallMs := benchmark.cycleEndMs wallNowMs }),
          (benchmark.prepare order now).preparedRows now wallNowMs
            (benchmark.cycleEndMs wallNowMs) signals clock) := rfl

/-- A publication is prepared exactly when both clocks passed the cursor. -/
theorem windowEvents_passed {after : Benchmark} {rows : List LatencyWindowEvent}
    (prepared : benchmark.windowEvents order now wallNowMs signals clock = some (after, rows)) :
    (after = benchmark.prepare order now ∧ rows = []) ∨
    (benchmark.outcomeCursorWallMs < benchmark.cycleEndMs wallNowMs ∧
      benchmark.outcomeCursor < now ∧
      after = (benchmark.prepare order now).withPrepared
        (some { stop := now, stopWallMs := benchmark.cycleEndMs wallNowMs }) ∧
      rows = (benchmark.prepare order now).preparedRows now wallNowMs
        (benchmark.cycleEndMs wallNowMs) signals clock) := by
  rw [windowEvents_eq] at prepared
  split_ifs at prepared with zero stale
  · obtain ⟨sameAfter, sameRows⟩ := Prod.mk.inj (Option.some.inj prepared)
    exact Or.inl ⟨sameAfter.symm, sameRows.symm⟩
  · obtain ⟨sameAfter, sameRows⟩ := Prod.mk.inj (Option.some.inj prepared)
    rw [prepare_outcomeCursorWallMs, prepare_outcomeCursor] at stale
    obtain ⟨wallAdvances, advances⟩ := not_or.mp stale
    exact Or.inr ⟨Nat.lt_of_not_le wallAdvances, Nat.lt_of_not_le advances, sameAfter.symm,
      sameRows.symm⟩

theorem commitPreparedPublication_of_none
    (none : benchmark.preparedOutcomeInterval = none) :
    benchmark.commitPreparedPublication = (benchmark, false) := by
  unfold commitPreparedPublication
  rw [none]

theorem commitPreparedPublication_of_some {interval : PreparedOutcomeInterval}
    (wallAdvances : benchmark.outcomeCursorWallMs < interval.stopWallMs)
    (advances : benchmark.outcomeCursor < interval.stop) :
    (benchmark.withPrepared (some interval)).commitPreparedPublication =
      ((benchmark.withPrepared none).withCommitted interval, true) := by
  unfold commitPreparedPublication
  have fresh : ¬(interval.stopWallMs ≤ benchmark.outcomeCursorWallMs ∨
      interval.stop ≤ benchmark.outcomeCursor) := by omega
  exact if_neg fresh

theorem committed_eq {state : Benchmark} {rows : List LatencyWindowEvent}
    (prepared : benchmark.windowEvents order now wallNowMs signals clock = some (state, rows)) :
    benchmark.committed (.publishWindow order now wallNowMs signals clock true) =
      if state.commitPreparedPublication.2 then
        [{ startMs := benchmark.outcomeCursorWallMs
           stopMs := state.commitPreparedPublication.1.outcomeCursorWallMs
           rows := rows
           counted := state.countedOutcomes now }]
      else [] := by
  unfold committed
  dsimp only
  rw [prepared]

/-- A cycle commits one publication, or it leaves the prepared state as it is. -/
theorem publishWindow_cases {accepted : Bool} {final : Benchmark}
    (acted : benchmark.act (.publishWindow order now wallNowMs signals clock accepted) =
      some final) :
    (benchmark.committed (.publishWindow order now wallNowMs signals clock accepted) = [] ∧
      final = benchmark.prepare order now) ∨
    (accepted = true ∧ benchmark.outcomeCursorWallMs < benchmark.cycleEndMs wallNowMs ∧
      benchmark.committed (.publishWindow order now wallNowMs signals clock accepted) =
        [{ startMs := benchmark.outcomeCursorWallMs
           stopMs := benchmark.cycleEndMs wallNowMs
           rows := (benchmark.prepare order now).preparedRows now wallNowMs
             (benchmark.cycleEndMs wallNowMs) signals clock
           counted := (benchmark.prepare order now).countedOutcomes now }] ∧
      final = (benchmark.prepare order now).withCommitted
        { stop := now, stopWallMs := benchmark.cycleEndMs wallNowMs }) := by
  obtain ⟨middle, stepped, ended⟩ := Option.bind_eq_some_iff.mp acted
  obtain ⟨⟨state, rows⟩, prepared, same⟩ := Option.map_eq_some_iff.mp stepped
  dsimp only at same
  subst same
  have ended : (if accepted then state.commitPreparedPublication.1
      else state.rejectPreparedPublication) = final := by
    cases accepted <;> exact Option.some.inj ended
  rcases windowEvents_passed prepared with
    ⟨sameState, _⟩ | ⟨wallAdvances, advances, sameState, sameRows⟩
  · have none : state.preparedOutcomeInterval = none := by
      rw [sameState]
      exact prepare_prepared now
    have unchanged := commitPreparedPublication_of_none none
    cases accepted with
    | false =>
        refine Or.inl ⟨rfl, ended.symm.trans ?_⟩
        rw [sameState]
        exact withPrepared_prepare now
    | true =>
        refine Or.inl ⟨?_, ended.symm.trans ?_⟩
        · rw [committed_eq prepared, unchanged]
          rfl
        · rw [if_pos rfl, unchanged]
          exact sameState
  · cases accepted with
    | false =>
        refine Or.inl ⟨rfl, ended.symm.trans ?_⟩
        rw [sameState]
        exact withPrepared_prepare now
    | true =>
        have commits : state.commitPreparedPublication =
            ((benchmark.prepare order now).withCommitted
              { stop := now, stopWallMs := benchmark.cycleEndMs wallNowMs }, true) := by
          rw [sameState, commitPreparedPublication_of_some, withPrepared_prepare]
          · rwa [prepare_outcomeCursorWallMs]
          · rwa [prepare_outcomeCursor]
        refine Or.inr ⟨rfl, wallAdvances, ?_, ended.symm.trans ?_⟩
        · rw [committed_eq prepared, commits, sameRows, sameState]
          rfl
        · rw [if_pos rfl, commits]

end Cycle

/-! ## What the rows of a publication show -/

/-- The count of a fold of outcomes is the number of cohorts. -/
theorem foldl_count_complete (providers : List Provider) (cohorts : List CommittedCohort)
    (counts : OutcomeCounts) :
    (cohorts.foldl (OutcomeCounts.count providers) counts).complete =
      counts.complete + cohorts.length := by
  induction cohorts generalizing counts with
  | nil => rfl
  | cons cohort rest ih =>
      have one : (counts.count providers cohort).complete = counts.complete + 1 := by
        unfold OutcomeCounts.count
        dsimp only
        split <;> rfl
      rw [List.foldl_cons, ih, one, List.length_cons]
      omega

/-- The rows of a publication show its interval, and as many cohorts as it counts. -/
def Publication.Shown (config : BenchmarkConfig) (publication : Publication) : Prop :=
  ∀ row ∈ publication.rows,
    row.outcomeCompleteCohortCount = (publication.counted row.coin).length ∧
    row.outcomeIntervalStartMs = publication.startMs ∧
    row.outcomeIntervalEndMs = publication.stopMs ∧
    row.windowId = windowId config row.coin publication.stopMs ∧
    row.outcomeIntervalId =
      outcomeIntervalId config row.coin publication.startMs publication.stopMs

theorem windowEvent_outcomes (now wallNowMs wallMs : Nat) (signals : RuntimeSignals)
    (clock : ClockAssessment) (coin : String) (provider : Provider) :
    (benchmark.windowEvent now wallNowMs wallMs signals clock coin
      provider).outcomeCompleteCohortCount = (benchmark.countedOutcomes now coin).length := by
  unfold windowEvent countedOutcomes
  dsimp only
  split
  · unfold unreportedOutcomes
    rw [foldl_count_complete, List.length_map]
    exact Nat.zero_add _
  · rfl

theorem preparedRows_shown (now wallNowMs wallMs : Nat) (signals : RuntimeSignals)
    (clock : ClockHealthSnapshot) :
    Publication.Shown benchmark.config
      { startMs := benchmark.outcomeCursorWallMs
        stopMs := wallMs
        rows := benchmark.preparedRows now wallNowMs wallMs signals clock
        counted := benchmark.countedOutcomes now } := by
  intro row member
  obtain ⟨coin, _, ofCoin⟩ := List.mem_flatMap.mp member
  obtain ⟨provider, _, same⟩ := List.mem_map.mp ofCoin
  rw [← same]
  exact ⟨windowEvent_outcomes now wallNowMs wallMs signals _ coin provider, rfl, rfl, rfl, rfl⟩

/-! ## Runs of activities -/

/-- One publication continues where another one stopped. -/
def Publication.Follows (earlier later : Publication) : Prop :=
  later.startMs = earlier.stopMs ∧ earlier.stopMs < later.stopMs

def Publication.Precedes (earlier later : Publication) : Prop := earlier.stopMs < later.stopMs

instance : Trans Publication.Precedes Publication.Precedes Publication.Precedes :=
  ⟨Nat.lt_trans⟩

/-- The publications committed so far, as the state remembers them. -/
structure Tallied (published : List Publication) (benchmark : Benchmark) : Prop where
  shown : ∀ publication ∈ published, publication.Shown benchmark.config
  tiled : published.IsChain Publication.Follows
  cursor : ∀ last ∈ published.getLast?, last.stopMs = benchmark.outcomeCursorWallMs
  accounted : benchmark.config.hasProviderComparison = true →
    benchmark.AccountedAll fun coin => published.flatMap fun publication =>
      publication.counted coin
  uncompared : benchmark.config.hasProviderComparison = false →
    ∀ publication ∈ published, ∀ coin, publication.counted coin = []

section Tallied

variable {published : List Publication}

theorem Tallied.new (config : BenchmarkConfig) (startedAt startedWallMs : Nat) :
    Tallied [] (Benchmark.new config startedAt startedWallMs) :=
  ⟨nofun, List.isChain_nil, nofun, fun _ _ => Accounted.empty, nofun⟩

/-- Nothing is committed, and the ledgers stay in step. -/
theorem Tallied.keep (tallied : Tallied published benchmark) {after : Benchmark}
    (sameConfig : after.config = benchmark.config)
    (sameCursor : after.outcomeCursorWallMs = benchmark.outcomeCursorWallMs)
    (accounted : ∀ counted, benchmark.AccountedAll counted → after.AccountedAll counted) :
    Tallied published after := by
  refine ⟨?_, tallied.tiled, ?_, ?_, ?_⟩
  · rw [sameConfig]
    exact tallied.shown
  · rw [sameCursor]
    exact tallied.cursor
  · rw [sameConfig]
    exact fun compared => accounted _ (tallied.accounted compared)
  · rw [sameConfig]
    exact tallied.uncompared

/-- A commit adds the publication that its rows were prepared for. -/
theorem Tallied.commit (tallied : Tallied published benchmark) {now wallMs : Nat}
    (wallAdvances : benchmark.outcomeCursorWallMs < wallMs) (wallNowMs : Nat)
    (signals : RuntimeSignals) (clock : ClockHealthSnapshot) :
    Tallied
      (published ++ [{ startMs := benchmark.outcomeCursorWallMs
                       stopMs := wallMs
                       rows := benchmark.preparedRows now wallNowMs wallMs signals clock
                       counted := benchmark.countedOutcomes now }])
      (benchmark.withCommitted { stop := now, stopWallMs := wallMs }) := by
  refine ⟨?_, ?_, ?_, ?_, ?_⟩
  · intro publication member
    rcases List.mem_append.mp member with old | new
    · exact tallied.shown publication old
    · rw [List.mem_singleton.mp new]
      exact preparedRows_shown now wallNowMs wallMs signals clock
  · refine List.isChain_append.mpr ⟨tallied.tiled, List.isChain_singleton _, ?_⟩
    intro last isLast first isFirst
    cases isFirst
    have stopped := tallied.cursor last isLast
    exact ⟨stopped.symm, by rw [stopped]; exact wallAdvances⟩
  · intro last isLast
    rw [List.getLast?_concat] at isLast
    cases isLast
    rfl
  · intro compared
    have isCompared : benchmark.config.hasProviderComparison = true := compared
    have entered := (tallied.accounted compared).withCommitted
      { stop := now, stopWallMs := wallMs }
    intro coin
    dsimp only
    rw [List.flatMap_append, List.flatMap_singleton]
    change Accounted _ _ (_ ++ benchmark.countedOutcomes now coin)
    rw [countedOutcomes_of_compared isCompared]
    exact entered coin
  · intro uncompared publication member coin
    rcases List.mem_append.mp member with old | new
    · exact tallied.uncompared uncompared publication old coin
    · rw [List.mem_singleton.mp new]
      exact if_neg (Bool.eq_false_iff.mp uncompared)

theorem record_cursor {event : ProbeEvent} {after : Benchmark}
    (recorded : benchmark.record order event = some after) :
    after.cursor = benchmark.cursor := by
  rcases record_cases order benchmark recorded with
    ⟨market, _, recorded⟩ | ⟨_, provider, coin, increment, _, _, same⟩
  · rcases recordMarket_cases order benchmark recorded with
      ⟨_, same⟩ | ⟨_, _, _, increment, _, same⟩ | ⟨_, _, same⟩
    · rw [same]
    · rw [same]
      rfl
    · rw [same]
      refine recordAccepted_induction order benchmark
        (fun state => state.cursor = benchmark.cursor)
        (fun state => state.cursor = benchmark.cursor) rfl ?_ ?_ (fun _ _ _ held => held) ?_
      · intro state pending _ _ _ held
        rw [settle_cursor, held]
      · intro state oldest _ _ _ _ held
        rw [settle_cursor, held]
      · intro state _ _ _ held
        rw [store_cursor, held]
  · rw [same]
    rfl

/-- Every activity adds what it commits. -/
theorem Tallied.act (tallied : Tallied published benchmark) {activity : Activity}
    {after : Benchmark} (acted : benchmark.act activity = some after) :
    Tallied (published ++ benchmark.committed activity) after := by
  cases activity with
  | record order event =>
      have recorded := (run_singleton benchmark _).symm.trans acted
      refine (List.append_nil published).symm ▸ tallied.keep ?_ ?_ ?_
      · exact step_config benchmark recorded
      · exact congrArg (fun cursor => cursor.2.2.1) (record_cursor recorded)
      · exact fun _ accounted => accounted.record recorded
  | tick order now =>
      have ticked := (run_singleton benchmark _).symm.trans acted
      cases ticked
      refine (List.append_nil published).symm ▸ tallied.keep ?_ ?_ ?_
      · exact tick_config order benchmark now
      · exact congrArg (fun cursor => cursor.2.2.1) (tick_cursor order benchmark now)
      · exact fun _ accounted => accounted.tick now
  | publishWindow order now wallNowMs signals clock accepted =>
      have prepared : Tallied published (benchmark.prepare order now) :=
        tallied.keep (prepare_config now) (prepare_outcomeCursorWallMs now)
          fun counted accounted => by
            have withoutPrepared : (benchmark.withPrepared none).AccountedAll counted := accounted
            exact withoutPrepared.tick now
      rcases publishWindow_cases acted with ⟨nothing, same⟩ | ⟨_, wallAdvances, one, same⟩
      · rw [nothing, same, List.append_nil]
        exact prepared
      · have cursor : (benchmark.prepare order now).outcomeCursorWallMs =
            benchmark.outcomeCursorWallMs := prepare_outcomeCursorWallMs now
        rw [one, same, ← cursor]
        refine prepared.commit ?_ wallNowMs signals clock
        rwa [prepare_outcomeCursorWallMs]

end Tallied

section Run

variable {config : BenchmarkConfig} {startedAt startedWallMs : Nat}
  {activities : List Activity} {final : Benchmark}

/-- The publications committed by a run of activities on a new benchmark. -/
def publications (config : BenchmarkConfig) (startedAt startedWallMs : Nat)
    (activities : List Activity) : List Publication :=
  emissions act committed (Benchmark.new config startedAt startedWallMs) activities

theorem tallied_run
    (executed : run act (Benchmark.new config startedAt startedWallMs) activities = some final) :
    Tallied (publications config startedAt startedWallMs activities) final := by
  refine run_induction (fun activities state =>
    Tallied (publications config startedAt startedWallMs activities) state) ?_ ?_ executed
  · exact Tallied.new config startedAt startedWallMs
  · intro activities before activity after reached tallied acted
    unfold publications
    rw [emissions_concat committed activity reached]
    exact tallied.act acted

theorem run_calls
    (executed : run act (Benchmark.new config startedAt startedWallMs) activities = some final) :
    run step (Benchmark.new config startedAt startedWallMs)
      (activities.flatMap Activity.calls) = some final :=
  (run_flatMap Activity.calls _ activities).symm.trans executed

/-- An event is recorded with a receipt that is not after a later cycle. -/
def Activity.NotAfter : Activity → Activity → Prop
  | .record _ (.market event), .publishWindow _ now _ _ _ _ => event.received ≤ now
  | _, _ => True

/-- What a cycle finds in the rings was committed by its instant. -/
theorem committedAt_le {earlier : List Activity} {before : Benchmark} {order : IterationOrder}
    {now wallNowMs : Nat} {signals : RuntimeSignals} {clock : ClockHealthSnapshot}
    {accepted : Bool} {after : Benchmark}
    (reached : run act (Benchmark.new config startedAt startedWallMs) earlier = some before)
    (acted : before.act (.publishWindow order now wallNowMs signals clock accepted) =
      some after)
    (timely : ∀ activity ∈ earlier, activity.NotAfter
      (.publishWindow order now wallNowMs signals clock accepted))
    {coin : String} {cohort : CommittedCohort}
    (member : cohort ∈ ((before.prepare order now).windows coin).cohorts) :
    cohort.committedAt ≤ now := by
  obtain ⟨state, stepped, _⟩ := Option.bind_eq_some_iff.mp acted
  have toState := run_concat_of_step (run_calls reached) stepped
  have inState : cohort ∈ (state.windows coin).cohorts := by
    obtain ⟨⟨_, rows⟩, prepared, same⟩ := Option.map_eq_some_iff.mp stepped
    dsimp only at same
    subst same
    rcases windowEvents_passed prepared with ⟨same, _⟩ | ⟨_, _, same, _⟩
    · rw [same]
      exact member
    · rw [same]
      exact member
  obtain ⟨key, _, _, front, during, back, split, _, arrival, justified⟩ :=
    (traced_run toState).cohorts coin cohort inState
  obtain ⟨provider, active, isLatest⟩ := justified.latest
  obtain ⟨⟨⟨recordOrder, recorded⟩, _⟩, _⟩ := justified.delivered provider active
  have inCalls : Call.record recordOrder (.market (arrival provider)) ∈
      earlier.flatMap Activity.calls ++ [.windowEvents order now wallNowMs signals clock] := by
    rw [split]
    exact List.mem_append_left back (List.mem_append_right front recorded)
  rw [← isLatest]
  rcases List.mem_append.mp inCalls with inEarlier | isPublication
  · obtain ⟨activity, isEarlier, isCall⟩ := List.mem_flatMap.mp inEarlier
    have notAfter := timely activity isEarlier
    cases activity with
    | record order event =>
        cases List.mem_singleton.mp isCall
        exact notAfter
    | tick order now => cases List.mem_singleton.mp isCall
    | publishWindow order now wallNowMs signals clock accepted =>
        rcases List.mem_cons.mp isCall with same | inRest
        · cases same
        · cases accepted <;> cases List.mem_singleton.mp inRest
  · cases List.mem_singleton.mp isPublication

/-- After a committed cycle every cohort of a ring is marked. -/
theorem outcomeReported_of_committed {earlier : List Activity} {before after : Benchmark}
    {activity : Activity}
    (reached : run act (Benchmark.new config startedAt startedWallMs) earlier = some before)
    (acted : before.act activity = some after)
    (timely : ∀ other ∈ earlier, other.NotAfter activity)
    (commits : before.committed activity ≠ []) {coin : String} {cohort : CommittedCohort}
    (member : cohort ∈ (after.windows coin).cohorts) : cohort.outcomeReported = true := by
  cases activity with
  | record order event => exact absurd rfl commits
  | tick order now => exact absurd rfl commits
  | publishWindow order now wallNowMs signals clock accepted =>
      rcases publishWindow_cases acted with ⟨nothing, _⟩ | ⟨_, _, _, same⟩
      · exact absurd nothing commits
      rw [same] at member
      obtain ⟨found, isFound, mark⟩ := List.mem_map.mp member
      have inTime := committedAt_le reached acted timely isFound
      rw [← mark]
      by_cases unreported : found.unreported now = true
      · rw [if_pos unreported]
      · rw [if_neg unreported]
        unfold CommittedCohort.unreported at unreported
        rw [decide_eq_true inTime, Bool.and_true, Bool.not_eq_true, Bool.not_eq_false']
          at unreported
        exact unreported

/-- Labels of publications that stopped at different wall times are different. -/
theorem labels_ne {first second : Publication} (firstShown : first.Shown config)
    (secondShown : second.Shown config) (different : first.stopMs ≠ second.stopMs)
    {row other : LatencyWindowEvent} (isRow : row ∈ first.rows) (isOther : other ∈ second.rows) :
    row.windowId ≠ other.windowId ∧ row.outcomeIntervalId ≠ other.outcomeIntervalId := by
  obtain ⟨_, _, _, rowWindow, rowInterval⟩ := firstShown row isRow
  obtain ⟨_, _, _, otherWindow, otherInterval⟩ := secondShown other isOther
  rw [rowWindow, rowInterval, otherWindow, otherInterval]
  have colon : ':'.isDigit = false := rfl
  exact ⟨fun same => different (number_inj colon same),
    fun same => different (number_inj colon same)⟩

/-- What the publications of a run count, and how their intervals tile. -/
structure CountedOnce (config : BenchmarkConfig) (startedAt startedWallMs : Nat)
    (activities : List Activity) (final : Benchmark) : Prop where
  /-- The rows show the number of counted cohorts and the interval. -/
  shown : ∀ publication ∈ publications config startedAt startedWallMs activities,
    publication.Shown config
  /-- No cohort is counted by two publications, or twice by one. -/
  once : ∀ coin, ((publications config startedAt startedWallMs activities).flatMap
    fun publication => publication.counted coin).Nodup
  /-- The numbers tell the cohorts of a ring apart. -/
  distinct : config.hasProviderComparison = true →
    ∀ coin, ((final.windows coin).cohorts.map CommittedCohort.serial).Nodup
  /-- Exactly the cohorts that a committed publication counted are marked. -/
  marked : config.hasProviderComparison = true → ∀ coin, ∀ cohort ∈ (final.windows coin).cohorts,
    (cohort.outcomeReported = true ↔ ∃ publication ∈
      publications config startedAt startedWallMs activities,
        cohort.serial ∈ publication.counted coin)
  /-- Every cohort that a committed publication finds in a ring is counted by then. -/
  reached : config.hasProviderComparison = true →
    ∀ earlier activity later before after, activities = earlier ++ activity :: later →
      run act (Benchmark.new config startedAt startedWallMs) earlier = some before →
      before.act activity = some after → before.committed activity ≠ [] →
      ∀ coin, ∀ cohort ∈ (after.windows coin).cohorts, ∃ publication ∈
        publications config startedAt startedWallMs (earlier ++ [activity]),
          cohort.serial ∈ publication.counted coin
  /-- Without a comparison of providers nothing is counted. -/
  uncompared : config.hasProviderComparison = false →
    ∀ publication ∈ publications config startedAt startedWallMs activities,
      ∀ coin, publication.counted coin = []
  /-- A rejected or empty cycle leaves the state that it prepared. -/
  rejected : ∀ earlier order now wallNowMs signals clock accepted later before after,
    activities =
      earlier ++ .publishWindow order now wallNowMs signals clock accepted :: later →
    run act (Benchmark.new config startedAt startedWallMs) earlier = some before →
    before.act (.publishWindow order now wallNowMs signals clock accepted) = some after →
    before.committed (.publishWindow order now wallNowMs signals clock accepted) = [] →
    after = before.prepare order now
  /-- Each interval starts where the one before it stopped, and stops later. -/
  tiled : (publications config startedAt startedWallMs activities).IsChain Publication.Follows
  /-- No two publications share a label. -/
  labelled : (publications config startedAt startedWallMs activities).Pairwise
    fun first second => ∀ row ∈ first.rows, ∀ other ∈ second.rows,
      row.windowId ≠ other.windowId ∧ row.outcomeIntervalId ≠ other.outcomeIntervalId

/--
In every run of the event loop whose events were received by the cycles after
them, the committed publications count each complete cohort once, and their
intervals tile the wall clock.
-/
theorem outcomes_counted_once
    (executed : run act (Benchmark.new config startedAt startedWallMs) activities = some final)
    (timely : activities.Pairwise Activity.NotAfter) :
    CountedOnce config startedAt startedWallMs activities final := by
  have tallied := tallied_run executed
  have sameConfig : final.config = config := run_config (run_calls executed)
  have accounted := tallied.accounted
  have uncounted := tallied.uncompared
  have shown := tallied.shown
  rw [sameConfig] at accounted uncounted shown
  have increasing : (publications config startedAt startedWallMs activities).Pairwise
      Publication.Precedes := (tallied.tiled.imp fun _ _ follows => follows.2).pairwise
  refine ⟨shown, ?_, ?_, ?_, ?_, uncounted, ?_, tallied.tiled, ?_⟩
  · intro coin
    cases compared : config.hasProviderComparison with
    | true => exact (accounted compared coin).once
    | false =>
        rw [List.flatMap_eq_nil_iff.mpr fun publication member =>
          uncounted compared publication member coin]
        exact List.nodup_nil
  · exact fun compared coin => (accounted compared coin).distinct
  · intro compared coin cohort member
    rw [(accounted compared coin).marked cohort member, List.mem_flatMap]
  · intro compared earlier activity later before after split reached acted commits coin cohort
      member
    have ofPrefix := tallied_run (run_concat_of_step reached acted)
    have afterConfig : after.config = config :=
      run_config (run_calls (run_concat_of_step reached acted))
    have afterAccounted := ofPrefix.accounted
    rw [afterConfig] at afterAccounted
    rw [split] at timely
    have before := (List.pairwise_append.mp timely).2.2
    have mark := outcomeReported_of_committed reached acted
      (fun other isEarlier => before other isEarlier activity List.mem_cons_self) commits member
    exact List.mem_flatMap.mp
      (((afterAccounted compared coin).marked cohort member).mp mark)
  · intro earlier order now wallNowMs signals clock accepted later before after _ _ acted nothing
    rcases publishWindow_cases acted with ⟨_, same⟩ | ⟨_, _, one, _⟩
    · exact same
    · rw [nothing] at one
      cases one
  · refine increasing.imp_of_mem fun isFirst isSecond earlier => ?_
    intro row isRow other isOther
    exact labels_ne (shown _ isFirst) (shown _ isSecond) (Nat.ne_of_lt earlier) isRow isOther

end Run

/-! ## Sample runs -/

def publishBook (now wallNowMs : Nat) : Activity :=
  .publishWindow .stored now wallNowMs (liveSignals wallNowMs) (soundClock wallNowMs) true

/-- A cohort, a publication of it, and a publication after it. -/
def bookActivities : List Activity :=
  [.record .stored (.market (quote .foundationWs "7" 0)),
    .record .stored (.market (quote .quickNodeGrpc "7" 3)),
    .record .stored (.market (quote .hydromancerWs "7" 5)),
    publishBook 20 30000, publishBook 40 60000]

theorem outcomes_counted_once_bookActivities :
    ∃ final, run act (Benchmark.new bookProcess 0 0) bookActivities = some final ∧
      (publications bookProcess 0 0 bookActivities).map (fun publication =>
        (publication.startMs, publication.stopMs, publication.counted "BTC")) =
        [(0, 30000, [1]), (30000, 60000, [])] ∧
      CountedOnce bookProcess 0 0 bookActivities final := by
  have sampled : (run act (Benchmark.new bookProcess 0 0) bookActivities).map
      (fun final => (final.windows "BTC").cohorts.length) = some 1 := by decide +kernel
  obtain ⟨final, executed, _⟩ := Option.map_eq_some_iff.mp sampled
  refine ⟨final, executed, by decide +kernel, outcomes_counted_once executed ?_⟩
  unfold bookActivities publishBook
  simp [Activity.NotAfter, quote]

/-- A book process with a single source. -/
def localProcess : BenchmarkConfig :=
  { bookProcess with vpcLocal := true }

def localActivities : List Activity :=
  [.record .stored (.market (quote .quickNodeVpc "7" 5)), publishBook 20 30000]

/-- A single source commits cohorts, but its publications count none of them. -/
theorem uncounted_outcomes :
    ∃ final, run act (Benchmark.new localProcess 0 0) localActivities = some final ∧
      (final.windows "BTC").cohorts.map
        (fun cohort => (cohort.committedAt, cohort.outcomeReported)) = [(5, true)] ∧
      (publications localProcess 0 0 localActivities).map (fun publication =>
        publication.rows.map fun row => (row.coin, row.outcomeCompleteCohortCount)) =
        [[("BTC", 0)]] := by
  have sampled : (run act (Benchmark.new localProcess 0 0) localActivities).map
      (fun final => (final.windows "BTC").cohorts.map
        fun cohort => (cohort.committedAt, cohort.outcomeReported)) = some [(5, true)] := by
    decide +kernel
  obtain ⟨final, executed, ring⟩ := Option.map_eq_some_iff.mp sampled
  exact ⟨final, executed, ring, by decide +kernel⟩

end Benchmark

end MarketBenchmark
