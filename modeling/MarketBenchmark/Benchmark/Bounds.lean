import MarketBenchmark.Benchmark.Retention

/-!
# Bounded state

Every container of the benchmark stays within its cap, along every run.  What
a cap pushes out is counted once, under the coin that lost it, and stamped; and
nothing else leaves but what aged out or was settled in time.
-/

namespace MarketBenchmark

open Foundation.HashMaps
open Foundation.TimedRing
open Foundation.Runs

namespace Benchmark

/-- Every container is within its cap. -/
structure Bounded (benchmark : Benchmark) : Prop where
  pending : benchmark.pending.entries.length ≤ benchmark.config.maxPending
  candidates : ∀ base pending, benchmark.pending.lookup base = some pending →
    pending.candidates.entries.length ≤ maxSignaturesPerBase
  settled : benchmark.settled.entries.length ≤ benchmark.config.maxSettled
  settledBases : benchmark.settledBases.entries.length ≤ benchmark.config.maxSettled
  cohorts : ∀ coin,
    (benchmark.windows coin).cohorts.length ≤ benchmark.config.maxRollingCohorts
  coverage : ∀ coin,
    (benchmark.windows coin).coverage.length ≤ benchmark.config.maxRollingCohorts

variable {order : IterationOrder} {benchmark : Benchmark}

theorem length_insertSettledBase_le_cap (positive : 0 < benchmark.config.maxSettled)
    (short : benchmark.settledBases.entries.length ≤ benchmark.config.maxSettled)
    (key : BaseKey) (settledAt : Nat) :
    (benchmark.insertSettledBase order key settledAt).settledBases.entries.length ≤
      benchmark.config.maxSettled := by
  have room := HashMap.length_insert_oldest order (fun timestamp => timestamp) positive short key
    settledAt
  unfold insertSettledBase
  by_cases full : benchmark.config.maxSettled ≤ benchmark.settledBases.entries.length
  · rw [if_pos full]
    cases chosen : HashMap.oldest order (fun timestamp => timestamp)
        benchmark.settledBases with
    | none =>
        rw [chosen] at room
        exact room
    | some oldest =>
        rw [chosen] at room
        exact room
  · rw [if_neg full]
    have inserted := HashMap.length_insert_le benchmark.settledBases key settledAt
    exact Nat.le_trans inserted (Nat.lt_of_not_le full)

theorem length_insertSettled_le_cap (positive : 0 < benchmark.config.maxSettled)
    (short : benchmark.settled.entries.length ≤ benchmark.config.maxSettled)
    (key : EventKey) (settled : SettledCohort) :
    (benchmark.insertSettled order key settled).settled.entries.length ≤
      benchmark.config.maxSettled := by
  have room := HashMap.length_insert_oldest order SettledCohort.settledAt positive short key settled
  unfold insertSettled
  by_cases full : benchmark.config.maxSettled ≤ benchmark.settled.entries.length
  · rw [if_pos full]
    cases chosen : HashMap.oldest order SettledCohort.settledAt benchmark.settled with
    | none =>
        rw [chosen] at room
        exact room
    | some oldest =>
        rw [chosen] at room
        exact room
  · rw [if_neg full]
    have inserted := HashMap.length_insert_le benchmark.settled key settled
    exact Nat.le_trans inserted (Nat.lt_of_not_le full)

/-- What finalizing a candidate can outgrow. -/
structure SamplesBounded (config : BenchmarkConfig) (benchmark : Benchmark) : Prop where
  settled : benchmark.settled.entries.length ≤ config.maxSettled
  cohorts : ∀ coin, (benchmark.windows coin).cohorts.length ≤ config.maxRollingCohorts
  coverage : ∀ coin, (benchmark.windows coin).coverage.length ≤ config.maxRollingCohorts

theorem SamplesBounded.finalizeCandidate {config : BenchmarkConfig}
    (bounded : benchmark.SamplesBounded config) (sameConfig : benchmark.config = config)
    (positive : 0 < config.maxSettled) (key : EventKey) (candidate : PendingCandidate)
    (now : Nat) (seen : Provider → Bool) :
    (benchmark.finalizeCandidate order key candidate now seen).SamplesBounded config := by
  subst sameConfig
  refine ⟨?_, ?_, ?_⟩
  · rw [finalizeCandidate_eq]
    refine length_insertSettled_le_cap ?_ ?_ key _
    · exact positive
    · exact bounded.settled
  · intro coin
    have windows := finalizeCandidate_windows order benchmark key candidate now seen
      CoinWindow.cohorts (fun _ _ => rfl) coin
    rw [windows]
    split
    · rw [sampleWindow_cohorts]
      split
      · exact length_insertCapped_le_cap (bounded.cohorts coin) _
      · exact bounded.cohorts coin
    · exact bounded.cohorts coin
  · intro coin
    have windows := finalizeCandidate_windows order benchmark key candidate now seen
      CoinWindow.coverage (fun _ _ => rfl) coin
    rw [windows]
    split
    · rw [sampleWindow_coverage]
      exact length_insertCapped_le_cap (bounded.coverage coin) _
    · exact bounded.coverage coin

theorem Bounded.settle (bounded : benchmark.Bounded)
    (positive : 0 < benchmark.config.maxSettled) (key : BaseKey) (now : Nat) (evicted : Bool) :
    (benchmark.settle order key now evicted).Bounded := by
  have samples : (benchmark.settle order key now evicted).SamplesBounded benchmark.config := by
    have init : benchmark.SamplesBounded benchmark.config :=
      ⟨bounded.settled, bounded.cohorts, bounded.coverage⟩
    cases found : benchmark.pending.lookup key with
    | none =>
        rw [settle_of_lookup_none order benchmark now evicted found]
        exact init
    | some pending =>
        refine settle_induction order benchmark (SamplesBounded benchmark.config) found ?_ ?_
        · refine ⟨?_, ?_, ?_⟩
          · rw [sealBase_settled]
            exact init.settled
          · intro coin
            rw [sealBase_windows order benchmark key pending now evicted CoinWindow.cohorts
              (fun _ _ => rfl)]
            exact init.cohorts coin
          · intro coin
            rw [sealBase_windows order benchmark key pending now evicted CoinWindow.coverage
              (fun _ _ => rfl)]
            exact init.coverage coin
        · intro state content candidate sameConfig _ held
          exact held.finalizeCandidate sameConfig positive _ candidate now _
  refine ⟨?_, ?_, ?_, ?_, ?_, ?_⟩
  · rw [settle_pending, settle_config]
    exact Nat.le_trans (HashMap.length_erase_le benchmark.pending key) bounded.pending
  · intro base pending found
    rw [settle_pending] at found
    exact bounded.candidates base pending (HashMap.lookup_erase_eq_some.mp found).2
  · rw [settle_config]
    exact samples.settled
  · rw [settle_config]
    cases found : benchmark.pending.lookup key with
    | none =>
        rw [settle_of_lookup_none order benchmark now evicted found]
        exact bounded.settledBases
    | some pending =>
        rw [settle_settledBases order benchmark key now evicted found]
        exact length_insertSettledBase_le_cap positive bounded.settledBases key now
  · rw [settle_config]
    exact samples.cohorts
  · rw [settle_config]
    exact samples.coverage

theorem Bounded.prune (bounded : benchmark.Bounded) (now : Nat) :
    (benchmark.prune now).Bounded := by
  refine ⟨bounded.pending, bounded.candidates, ?_, ?_, ?_, ?_⟩
  · exact Nat.le_trans (List.length_filter_le _ _) bounded.settled
  · exact Nat.le_trans (List.length_filter_le _ _) bounded.settledBases
  · exact fun coin => Nat.le_trans (List.length_filter_le _ _) (bounded.cohorts coin)
  · exact fun coin => Nat.le_trans (List.length_filter_le _ _) (bounded.coverage coin)

/-- A base of few candidates goes into a pending map that holds it or has room. -/
theorem Bounded.withPending (bounded : benchmark.Bounded) {base : BaseKey} {cohort : PendingBase}
    (room : base ∈ benchmark.pending ∨
      benchmark.pending.entries.length < benchmark.config.maxPending)
    (few : cohort.candidates.entries.length ≤ maxSignaturesPerBase) :
    (benchmark.withPending base cohort).Bounded := by
  refine ⟨?_, ?_, bounded.settled, bounded.settledBases, bounded.cohorts, bounded.coverage⟩
  · rw [withPending_pending, withPending_config]
    rcases room with present | short
    · have shorter := HashMap.length_erase_of_mem present
      have short := bounded.pending
      change (benchmark.pending.erase base).entries.length + 1 ≤ _
      omega
    · exact Nat.le_trans (HashMap.length_insert_le benchmark.pending base cohort) short
  · intro other pending found
    rcases HashMap.lookup_insert_eq_some.mp found with ⟨_, rfl⟩ | ⟨_, before⟩
    · exact few
    · exact bounded.candidates other pending before

/-- Bounds do not depend on counters and loss marks. -/
theorem Bounded.of_same {after : Benchmark} (bounded : benchmark.Bounded)
    (config : after.config = benchmark.config) (pending : after.pending = benchmark.pending)
    (settled : after.settled = benchmark.settled)
    (settledBases : after.settledBases = benchmark.settledBases)
    (cohorts : ∀ coin, (after.windows coin).cohorts.length =
      (benchmark.windows coin).cohorts.length)
    (coverage : ∀ coin, (after.windows coin).coverage.length =
      (benchmark.windows coin).coverage.length) : after.Bounded := by
  refine ⟨?_, ?_, ?_, ?_, ?_, ?_⟩
  · rw [pending, config]
    exact bounded.pending
  · rw [pending]
    exact bounded.candidates
  · rw [settled, config]
    exact bounded.settled
  · rw [settledBases, config]
    exact bounded.settledBases
  · intro coin
    rw [cohorts, config]
    exact bounded.cohorts coin
  · intro coin
    rw [coverage, config]
    exact bounded.coverage coin

theorem Bounded.bump (bounded : benchmark.Bounded) (coin : String) (provider : Provider)
    (increment : ProviderCounters) : (benchmark.bump coin provider increment).Bounded :=
  bounded.of_same rfl rfl rfl rfl (fun _ => rfl) fun _ => rfl

theorem Bounded.markIntegrityLoss (bounded : benchmark.Bounded) (coin : String) (now : Nat) :
    (benchmark.markIntegrityLoss coin now).Bounded := by
  refine bounded.of_same rfl rfl rfl rfl ?_ ?_
  · intro other
    unfold Benchmark.markIntegrityLoss
    rw [updateWindow_windows]
    split <;> rfl
  · intro other
    unfold Benchmark.markIntegrityLoss
    rw [updateWindow_windows]
    split <;> rfl

theorem Bounded.openedBase (bounded : benchmark.Bounded) (event : MarketEvent) :
    (benchmark.openedBase event).candidates.entries.length ≤ maxSignaturesPerBase := by
  unfold Benchmark.openedBase
  dsimp only
  cases found : benchmark.pending.lookup event.key.base with
  | none => exact Nat.zero_le _
  | some pending => exact bounded.candidates event.key.base pending found

/-- A candidate goes into a base that does not overflow. -/
theorem Bounded.heldBase (bounded : benchmark.Bounded) {event : MarketEvent}
    (fits : ¬benchmark.Overflowing event) (candidate : PendingCandidate) :
    (benchmark.heldBase event candidate).candidates.entries.length ≤ maxSignaturesPerBase := by
  change ((benchmark.openedBase event).candidates.insert event.key.content candidate).entries.length
    ≤ _
  by_cases present : event.key.content ∈ (benchmark.openedBase event).candidates
  · have shorter := HashMap.length_erase_of_mem present
    have few := bounded.openedBase event
    change ((benchmark.openedBase event).candidates.erase event.key.content).entries.length + 1 ≤ _
    omega
  · have room := not_and.mp fits present
    exact Nat.le_trans (HashMap.length_insert_le _ _ _) (Nat.lt_of_not_le room)

theorem Bounded.store (bounded : benchmark.Bounded) (positive : 0 < benchmark.config.maxSettled)
    {event : MarketEvent} (room : event.key.base ∈ benchmark.pending ∨
      benchmark.pending.entries.length < benchmark.config.maxPending) :
    (benchmark.store order event).Bounded := by
  rw [store_eq]
  split_ifs with overflowing arrived single
  · have opened := bounded.withPending room (bounded.openedBase event)
    exact (opened.bump event.key.coin event.provider _).markIntegrityLoss event.key.coin
      event.received
  · exact (bounded.withPending room (bounded.heldBase overflowing _)).bump event.key.coin
      event.provider _
  · exact (bounded.withPending room (bounded.heldBase overflowing _)).settle positive
      event.key.base event.received false
  · exact bounded.withPending room (bounded.heldBase overflowing _)

theorem Bounded.makeRoom (bounded : benchmark.Bounded) (order : IterationOrder)
    (positive : 0 < benchmark.config.maxSettled) (pendingPositive : 0 < benchmark.config.maxPending)
    (base : BaseKey) (received : Nat) :
    (benchmark.makeRoom order base received).Bounded ∧
      (base ∈ (benchmark.makeRoom order base received).pending ∨
        (benchmark.makeRoom order base received).pending.entries.length <
          benchmark.config.maxPending) := by
  unfold Benchmark.makeRoom
  by_cases full : base ∉ benchmark.pending ∧
      benchmark.config.maxPending ≤ benchmark.pending.entries.length
  · rw [if_pos full]
    cases chosen : HashMap.oldest order PendingBase.firstObserved benchmark.pending with
    | none =>
        have empty := HashMap.oldest_eq_none chosen
        rw [empty] at full
        exact absurd (Nat.lt_of_lt_of_le pendingPositive full.2) (Nat.lt_irrefl 0)
    | some oldest =>
        refine ⟨bounded.settle positive oldest received true, Or.inr ?_⟩
        dsimp only
        rw [settle_pending]
        have shorter := HashMap.length_erase_of_mem (HashMap.oldest_mem chosen)
        have short := bounded.pending
        omega
  · rw [if_neg full]
    refine ⟨bounded, ?_⟩
    by_cases present : base ∈ benchmark.pending
    · exact Or.inl present
    · exact Or.inr (Nat.lt_of_not_le (not_and.mp full present))

theorem Bounded.recordAccepted (bounded : benchmark.Bounded)
    (positive : 0 < benchmark.config.maxSettled) (pendingPositive : 0 < benchmark.config.maxPending)
    (event : MarketEvent) : (benchmark.recordAccepted order event).Bounded := by
  have observed := bounded.bump event.key.coin event.provider { observed := 1 }
  have sameConfig : (benchmark.bump event.key.coin event.provider { observed := 1 }).config =
      benchmark.config := rfl
  unfold Benchmark.recordAccepted
  dsimp only
  generalize benchmark.bump event.key.coin event.provider { observed := 1 } = state
    at observed sameConfig ⊢
  rw [← sameConfig] at positive pendingPositive
  have sealed : (state.sealOverdue order event.key.base event.received).Bounded ∧
      (state.sealOverdue order event.key.base event.received).config = state.config := by
    rcases sealOverdue_cases order state event.key.base event.received with
      ⟨same, _⟩ | ⟨_, _, _, same⟩
    · rw [same]
      exact ⟨observed, rfl⟩
    · rw [same]
      exact ⟨observed.settle positive event.key.base event.received false, settle_config ..⟩
  obtain ⟨held, sealedConfig⟩ := sealed
  generalize state.sealOverdue order event.key.base event.received = middle
    at held sealedConfig ⊢
  rw [← sealedConfig] at positive pendingPositive
  split
  · exact held.bump event.key.coin event.provider _
  · obtain ⟨roomy, room⟩ :=
      held.makeRoom order positive pendingPositive event.key.base event.received
    have roomConfig : (middle.makeRoom order event.key.base event.received).config =
        middle.config := by
      rcases makeRoom_cases order middle event.key.base event.received with
        same | ⟨oldest, _, _, same⟩
      · rw [same]
      · rw [same, settle_config]
    rw [← roomConfig] at positive room
    exact roomy.store positive room

/-- No call outgrows a cap. -/
theorem Bounded.step {call : Call} {after : Benchmark} (bounded : benchmark.Bounded)
    (pendingPositive : 0 < benchmark.config.maxPending)
    (positive : 0 < benchmark.config.maxSettled)
    (stepped : benchmark.step call = some after) : after.Bounded := by
  refine step_induction Bounded stepped bounded ?_ ?_ ?_ ?_ ?_ ?_ ?_
  · exact fun coin provider increment _ _ => bounded.bump coin provider increment
  · intro order event increment _ _ _ _ _
    exact (bounded.bump event.key.coin event.provider increment).markIntegrityLoss event.key.coin
      event.received
  · exact fun order event _ _ _ => bounded.recordAccepted positive pendingPositive event
  · intro order state key now _ sameConfig _ held
    rw [← sameConfig] at positive
    exact held.settle positive key now false
  · exact fun state now _ _ held => held.prune now
  · exact fun state interval held =>
      ⟨held.pending, held.candidates, held.settled, held.settledBases, held.cohorts, held.coverage⟩
  · intro interval _ _ _
    refine ⟨bounded.pending, bounded.candidates, bounded.settled, bounded.settledBases, ?_, ?_⟩
    · intro coin
      refine Nat.le_trans (Nat.le_of_eq ?_) (bounded.cohorts coin)
      exact List.length_map _
    · exact fun coin => bounded.coverage coin

theorem Bounded.new {config : BenchmarkConfig} (now : Nat) (wallNow : Nat) :
    (Benchmark.new config now wallNow).Bounded := by
  refine ⟨Nat.zero_le _, ?_, Nat.zero_le _, Nat.zero_le _, fun _ => Nat.zero_le _,
    fun _ => Nat.zero_le _⟩
  intro base pending found
  cases found

/--
Bounded state, never silent.  Whatever was called before, every container is
within its cap; and when an event is recorded or a tick made next, each entry
that a cap pushes out, and each refused candidate, advances one counter of its
coin by one and stamps the coin, and no entry leaves unaccounted.
-/
theorem bounded_never_silent {config : BenchmarkConfig} {now wallNow : Nat} {calls : List Call}
    {final : Benchmark} (pendingPositive : 0 < config.maxPending)
    (settledPositive : 0 < config.maxSettled)
    (executed : run step (Benchmark.new config now wallNow) calls = some final) :
    final.Bounded ∧
    (∀ order event after, final.step (.record order event) = some after →
      Counted (final.losses (.record order event)) final after ∧
      Retained (final.groundsOf (.record order event)) (final.losses (.record order event))
        final after) ∧
    ∀ order instant after, final.step (.tick order instant) = some after →
      Counted (final.losses (.tick order instant)) final after ∧
      Retained (final.groundsOf (.tick order instant)) (final.losses (.tick order instant))
        final after := by
  have bounded : final.config = config ∧ final.Bounded := by
    refine run_preserves (fun state => state.config = config ∧ state.Bounded) ?_
      ⟨rfl, Bounded.new now wallNow⟩ executed
    rintro before call after ⟨sameConfig, held⟩ stepped
    refine ⟨(step_config before stepped).trans sameConfig, held.step ?_ ?_ stepped⟩
    · rw [sameConfig]
      exact pendingPositive
    · rw [sameConfig]
      exact settledPositive
  have tidy := Tidy.run executed
  refine ⟨bounded.2, ?_, ?_⟩
  · intro order event after stepped
    exact ⟨counted_record order final stepped, retained_record order final tidy stepped⟩
  · intro order instant after stepped
    cases stepped
    refine ⟨counted_tick order final instant, ?_⟩
    refine retained_tick (final.groundsOf (.tick order instant)) order final tidy ?_ ?_
    · exact fun key pending found overdue =>
        ⟨⟨pending, found, overdue⟩, Or.inl ⟨pending, found, overdue⟩⟩
    · exact fun stamp old => old

/-- A book process with room for one base, one tombstone and one sample. -/
def narrowProcess : BenchmarkConfig :=
  { bookProcess with
    maxPending := 1
    maxSettled := 1
    maxRollingCohorts := 1 }

/-- A quote of time two, for which the base of time one has to go. -/
def crowdingQuote : ProbeEvent :=
  .market
    { provider := .foundationWs
      key := { coin := "BTC", eventMs := 2, content := .bbo none none }
      received := 3
      receivedWallMs := 4 }

theorem bounded_never_silent_sample :
    ∃ final after,
      run step (Benchmark.new narrowProcess 0 0) [recordQuote .foundationWs "7" 0] = some final ∧
      final.step (.record .stored crowdingQuote) = some after ∧ final.Bounded ∧
      Tally.read after "BTC" .stateEvictions = Tally.read final "BTC" .stateEvictions + 1 ∧
      (after.windows "BTC").lastIntegrityLoss = some 3 := by
  have computed : ((run step (Benchmark.new narrowProcess 0 0)
      [recordQuote .foundationWs "7" 0]).bind fun final =>
        (final.step (.record .stored crowdingQuote)).map fun _ =>
          ((final.losses (.record .stored crowdingQuote)).countP
            (fun loss => loss.counts "BTC" .stateEvictions),
          Loss.stamps "BTC" (final.losses (.record .stored crowdingQuote)))) =
      some (1, [3]) := by decide +kernel
  obtain ⟨final, executed, rest⟩ := Option.bind_eq_some_iff.mp computed
  obtain ⟨after, stepped, told⟩ := Option.map_eq_some_iff.mp rest
  obtain ⟨counted, stamps⟩ := Prod.mk.inj told
  obtain ⟨bounded, recorded, _⟩ :=
    bounded_never_silent (show 0 < narrowProcess.maxPending by decide)
      (show 0 < narrowProcess.maxSettled by decide) executed
  obtain ⟨accounted, _⟩ := recorded .stored crowdingQuote after stepped
  refine ⟨final, after, executed, stepped, bounded, ?_, ?_⟩
  · rw [accounted.tallies, counted]
  · rw [accounted.last, stamps]
    rfl

end Benchmark

end MarketBenchmark
