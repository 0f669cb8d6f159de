import MarketBenchmark.Benchmark.Effects

/-!
# Settling a base

`settle` seals the base, counts the arrivals that are not admitted, and then
finalizes the canonical candidates one after the other.  The rules of this file
split it there: `settle_induction` follows any property through the candidates,
and the closed forms say what a settlement adds up to.
-/

namespace MarketBenchmark

open Foundation.HashMaps
open Foundation.TimedRing

namespace Benchmark

variable (order : IterationOrder) (benchmark : Benchmark)

/-! ## The sealed base -/

/-- The state in which the candidates are finalized. -/
def sealBase (key : BaseKey) (pending : PendingBase) (now : Nat) (evicted : Bool) :
    Benchmark :=
  let config := benchmark.config
  let benchmark := { benchmark with pending := benchmark.pending.erase key }
  let benchmark := benchmark.insertSettledBase order key now
  let benchmark :=
    if evicted then benchmark.updateWindow key.coin fun window => window.evictState now
    else benchmark
  let counters := CounterTable.countArrivals benchmark.counters key.coin config.providers
    (pending.candidates.entries.map Sigma.snd)
    (fun candidate => candidate.arrivedAfterDeadline pending.firstObserved config.cohortTimeout)
    { late := 1 }
  { benchmark with
    counters := CounterTable.countArrivals counters key.coin config.providers
      (((admitted order config pending).filter fun entry =>
        !entry.2.isReference config).map Prod.snd)
      (fun candidate => candidate.hasArrival) { orphaned := 1 } }

/-- The canonical candidates of a base, in the order in which they are finalized. -/
def canonical (config : BenchmarkConfig) (pending : PendingBase) :
    List (ContentKey × PendingCandidate) :=
  (admitted order config pending).filter fun entry => entry.2.isReference config

/-- The event that a candidate of a base stands for. -/
def eventKey (base : BaseKey) (content : ContentKey) : EventKey where
  coin := base.coin
  eventMs := base.eventMs
  content := content

@[simp]
theorem eventKey_coin (base : BaseKey) (content : ContentKey) :
    (eventKey base content).coin = base.coin := rfl

theorem settle_of_lookup_none {key : BaseKey} (now : Nat) (evicted : Bool)
    (absent : benchmark.pending.lookup key = none) :
    benchmark.settle order key now evicted = benchmark := by
  unfold settle
  rw [absent]

theorem settle_of_lookup {key : BaseKey} {pending : PendingBase} (now : Nat)
    (evicted : Bool) (found : benchmark.pending.lookup key = some pending) :
    benchmark.settle order key now evicted =
      (canonical order benchmark.config pending).foldl
        (fun state entry => state.finalizeCandidate order (eventKey key entry.1) entry.2 now
          (noncanonicalSeen benchmark.config (admitted order benchmark.config pending)))
        (benchmark.sealBase order key pending now evicted) := by
  unfold settle
  rw [found]
  rfl

section SealBase

variable (key : BaseKey) (pending : PendingBase) (now : Nat) (evicted : Bool)

@[simp]
theorem sealBase_config :
    (benchmark.sealBase order key pending now evicted).config = benchmark.config := by
  cases evicted <;> exact insertSettledBase_config order _ key now

@[simp]
theorem sealBase_cursor :
    (benchmark.sealBase order key pending now evicted).cursor = benchmark.cursor := by
  cases evicted <;> exact insertSettledBase_cursor order _ key now

@[simp]
theorem sealBase_pending :
    (benchmark.sealBase order key pending now evicted).pending =
      benchmark.pending.erase key := by
  cases evicted <;> exact insertSettledBase_pending order _ key now

@[simp]
theorem sealBase_settled :
    (benchmark.sealBase order key pending now evicted).settled = benchmark.settled := by
  cases evicted <;> exact insertSettledBase_settled order _ key now

/-- Sealing only marks losses in the windows. -/
theorem sealBase_windows {Part : Type} (part : CoinWindow → Part)
    (untouched : ∀ window at_, part (CoinWindow.evictState window at_) = part window)
    (coin : String) :
    part ((benchmark.sealBase order key pending now evicted).windows coin) =
      part (benchmark.windows coin) := by
  cases evicted with
  | false => exact insertSettledBase_windows order _ key now part untouched coin
  | true =>
      have inserted := insertSettledBase_windows order
        { benchmark with pending := benchmark.pending.erase key } key now part untouched coin
      by_cases same : coin = key.coin
      · refine Eq.trans ?_ inserted
        exact (congrArg part (if_pos same)).trans (untouched _ _)
      · exact (congrArg part (if_neg same)).trans inserted

theorem sealBase_settledBases :
    (benchmark.sealBase order key pending now evicted).settledBases =
      (benchmark.insertSettledBase order key now).settledBases := by
  have pendingIrrelevant :
      (Benchmark.insertSettledBase order
        { benchmark with pending := benchmark.pending.erase key } key now).settledBases =
        (benchmark.insertSettledBase order key now).settledBases := by
    unfold insertSettledBase
    dsimp only
    by_cases full : benchmark.config.maxSettled ≤ benchmark.settledBases.entries.length
    · rw [if_pos full, if_pos full]
      cases HashMap.oldest order (fun timestamp => timestamp) benchmark.settledBases <;> rfl
    · rw [if_neg full, if_neg full]
  cases evicted <;> exact pendingIrrelevant

end SealBase

/--
A property of the sealed base that each canonical candidate preserves holds
after the settlement.  The configuration does not change on the way.
-/
theorem settle_induction (Holds : Benchmark → Prop) {key : BaseKey} {pending : PendingBase}
    {now : Nat} {evicted : Bool}
    (found : benchmark.pending.lookup key = some pending)
    (init : Holds (benchmark.sealBase order key pending now evicted))
    (next : ∀ state content candidate, state.config = benchmark.config →
      (content, candidate) ∈ canonical order benchmark.config pending → Holds state →
      Holds (state.finalizeCandidate order (eventKey key content) candidate now
        (noncanonicalSeen benchmark.config (admitted order benchmark.config pending)))) :
    Holds (benchmark.settle order key now evicted) := by
  rw [settle_of_lookup order benchmark now evicted found]
  suffices folded : ∀ (entries : List (ContentKey × PendingCandidate)) (state : Benchmark),
      (∀ entry ∈ entries, entry ∈ canonical order benchmark.config pending) →
      state.config = benchmark.config → Holds state →
      Holds (entries.foldl (fun state entry =>
        state.finalizeCandidate order (eventKey key entry.1) entry.2 now
          (noncanonicalSeen benchmark.config (admitted order benchmark.config pending))) state) by
    exact folded _ _ (fun entry member => member)
      (sealBase_config order benchmark key pending now evicted) init
  intro entries
  induction entries with
  | nil =>
      intro state _ _ held
      exact held
  | cons entry rest ih =>
      intro state members sameConfig held
      rw [List.foldl_cons]
      refine ih _ (fun other member => members other (List.mem_cons_of_mem _ member)) ?_ ?_
      · rw [finalizeCandidate_config, sameConfig]
      · exact next state entry.1 entry.2 sameConfig (members entry List.mem_cons_self) held

/-! ## What a settlement leaves alone -/

section Settle

variable (key : BaseKey) (now : Nat) (evicted : Bool)

@[simp]
theorem settle_config :
    (benchmark.settle order key now evicted).config = benchmark.config := by
  cases found : benchmark.pending.lookup key with
  | none => rw [settle_of_lookup_none order benchmark now evicted found]
  | some pending =>
      refine settle_induction order benchmark (fun state =>
        state.config = benchmark.config) found ?_ ?_
      · exact sealBase_config order benchmark key pending now evicted
      · intro state content candidate sameConfig _ _
        rw [finalizeCandidate_config, sameConfig]

@[simp]
theorem settle_cursor :
    (benchmark.settle order key now evicted).cursor = benchmark.cursor := by
  cases found : benchmark.pending.lookup key with
  | none => rw [settle_of_lookup_none order benchmark now evicted found]
  | some pending =>
      refine settle_induction order benchmark (fun state =>
        state.cursor = benchmark.cursor) found ?_ ?_
      · exact sealBase_cursor order benchmark key pending now evicted
      · intro state content candidate _ _ held
        rw [finalizeCandidate_cursor, held]

/-- Exactly the settled base leaves the pending map. -/
@[simp]
theorem settle_pending :
    (benchmark.settle order key now evicted).pending = benchmark.pending.erase key := by
  cases found : benchmark.pending.lookup key with
  | none =>
      rw [settle_of_lookup_none order benchmark now evicted found,
        HashMap.erase_of_notMem (AList.lookup_eq_none.mp found)]
  | some pending =>
      refine settle_induction order benchmark (fun state =>
        state.pending = benchmark.pending.erase key) found ?_ ?_
      · exact sealBase_pending order benchmark key pending now evicted
      · intro state content candidate _ _ held
        rw [finalizeCandidate_pending, held]

theorem settle_settledBases {pending : PendingBase}
    (found : benchmark.pending.lookup key = some pending) :
    (benchmark.settle order key now evicted).settledBases =
      (benchmark.insertSettledBase order key now).settledBases := by
  refine settle_induction order benchmark (fun state =>
    state.settledBases = (benchmark.insertSettledBase order key now).settledBases)
    found ?_ ?_
  · exact sealBase_settledBases order benchmark key pending now evicted
  · intro state content candidate _ _ held
    rw [finalizeCandidate_settledBases, held]

end Settle

/-! ## What a settlement counts -/

/-- What settling one candidate adds to the counters of an active provider. -/
def settledIncrement (config : BenchmarkConfig) (firstObserved : Nat)
    (seen : Provider → Bool) (candidate : PendingCandidate) (provider : Provider) :
    ProviderCounters :=
  let kept := candidate.withoutLate config.providers firstObserved config.cohortTimeout
  (if candidate.arrivedAfterDeadline firstObserved config.cohortTimeout provider then
    { late := 1 } else 0) +
  (if kept.isReference config then (outcomeOf kept seen provider).increment
  else if kept.hasArrival provider then { orphaned := 1 } else 0)

/-- Summing over the candidates as they are visited or as they are stored is the same. -/
theorem sum_admitted (config : BenchmarkConfig) (pending : PendingBase)
    (measure : PendingCandidate → ProviderCounters) :
    ((admitted order config pending).map fun entry => measure entry.2).sum =
      (pending.candidates.entries.map fun entry => measure
        (entry.2.withoutLate config.providers pending.firstObserved config.cohortTimeout)).sum := by
  unfold admitted
  rw [List.map_map]
  exact ((order.perm pending.candidates.entries).map _).sum_eq

theorem sealBase_counters (key : BaseKey) (pending : PendingBase) (now : Nat)
    (evicted : Bool) (coin : String) (provider : Provider) :
    (benchmark.sealBase order key pending now evicted).counters coin provider =
      benchmark.counters coin provider +
        if coin = key.coin ∧ provider ∈ benchmark.config.providers then
          (pending.candidates.entries.map fun entry =>
            if entry.2.arrivedAfterDeadline pending.firstObserved
              benchmark.config.cohortTimeout provider then
              ({ late := 1 } : ProviderCounters) else 0).sum +
          (((admitted order benchmark.config pending).filter fun entry =>
            !entry.2.isReference benchmark.config).map fun entry =>
              if entry.2.hasArrival provider then
                ({ orphaned := 1 } : ProviderCounters) else 0).sum
        else 0 := by
  unfold sealBase
  dsimp only
  rw [CounterTable.countArrivals_apply _ _ benchmark.config.providers_nodup,
    CounterTable.countArrivals_apply _ _ benchmark.config.providers_nodup]
  have unsealed :
      (if evicted = true then
        (Benchmark.insertSettledBase order
          { benchmark with pending := benchmark.pending.erase key } key now).updateWindow
            key.coin fun window => window.evictState now
      else Benchmark.insertSettledBase order
        { benchmark with pending := benchmark.pending.erase key } key now).counters =
      benchmark.counters := by
    cases evicted <;> exact insertSettledBase_counters order _ key now
  rw [unsealed, List.map_map, List.map_map, add_assoc]
  congr 1
  split
  · rfl
  · rw [add_zero]

theorem foldl_finalizeCandidate_counters (key : BaseKey) (now : Nat)
    (seen : Provider → Bool) (entries : List (ContentKey × PendingCandidate))
    (coin : String) (provider : Provider) :
    (entries.foldl (fun state entry =>
        state.finalizeCandidate order (eventKey key entry.1) entry.2 now seen)
        benchmark).counters coin provider =
      benchmark.counters coin provider +
        if coin = key.coin ∧ provider ∈ benchmark.config.providers then
          (entries.map fun entry => (outcomeOf entry.2 seen provider).increment).sum
        else 0 := by
  induction entries generalizing benchmark with
  | nil => simp
  | cons entry rest ih =>
      rw [List.foldl_cons, ih, finalizeCandidate_counters, finalizeCandidate_config,
        eventKey_coin, add_assoc]
      congr 1
      by_cases active : coin = key.coin ∧ provider ∈ benchmark.config.providers
      · rw [if_pos active, if_pos active, if_pos active, List.map_cons, List.sum_cons]
      · rw [if_neg active, if_neg active, if_neg active, add_zero]

/-- A settlement counts every candidate of its base once. -/
theorem settle_counters {key : BaseKey} {pending : PendingBase} (now : Nat)
    (evicted : Bool) (found : benchmark.pending.lookup key = some pending)
    (coin : String) (provider : Provider) :
    (benchmark.settle order key now evicted).counters coin provider =
      benchmark.counters coin provider +
        if coin = key.coin ∧ provider ∈ benchmark.config.providers then
          (pending.candidates.entries.map fun entry =>
            settledIncrement benchmark.config pending.firstObserved
              (noncanonicalSeen benchmark.config (admitted order benchmark.config pending))
              entry.2 provider).sum
        else 0 := by
  rw [settle_of_lookup order benchmark now evicted found, foldl_finalizeCandidate_counters,
    sealBase_counters, sealBase_config, add_assoc]
  congr 1
  split
  case isFalse => rw [add_zero]
  case isTrue =>
    unfold settledIncrement canonical
    dsimp only
    rw [List.sum_map_add, add_assoc]
    congr 1
    rw [← sum_admitted order benchmark.config pending fun kept =>
      if kept.isReference benchmark.config then
        (outcomeOf kept (noncanonicalSeen benchmark.config
          (admitted order benchmark.config pending)) provider).increment
      else if kept.hasArrival provider then { orphaned := 1 } else 0]
    refine Eq.trans ?_ (List.sum_map_ite
      (fun entry : ContentKey × PendingCandidate =>
        entry.2.isReference benchmark.config = true) _ _
      (admitted order benchmark.config pending)).symm
    rw [add_comm]
    simp only [Bool.decide_eq_true, Bool.decide_eq_false, Bool.not_eq_true]

/-! ## What a settlement puts into the rings -/

section Samples

variable (config : BenchmarkConfig) (key : EventKey) (candidate : PendingCandidate)
  (now : Nat) (seen : Provider → Bool) (window : CoinWindow)

theorem sampleWindow_coverage :
    (sampleWindow config key candidate now seen window).coverage =
      insertCapped CoverageCohort.settledAt config.maxRollingCohorts window.coverage
        (coverageEntry config key candidate now seen) := by
  unfold sampleWindow
  dsimp only
  split
  · rw [CoinWindow.insertCohort_coverage, CoinWindow.insertCoverage_coverage]
  · rw [CoinWindow.insertCoverage_coverage]

theorem sampleWindow_cohorts :
    (sampleWindow config key candidate now seen window).cohorts =
      if candidate.complete config.providers then
        insertCapped CommittedCohort.committedAt config.maxRollingCohorts window.cohorts
          (cohortEntry config key candidate (window.completeCohorts + 1))
      else window.cohorts := by
  unfold sampleWindow
  dsimp only
  split
  · rw [CoinWindow.insertCohort_cohorts, CoinWindow.insertCoverage_cohorts,
      CoinWindow.insertCoverage_completeCohorts]
  · rw [CoinWindow.insertCoverage_cohorts]

theorem sampleWindow_completeCohorts :
    (sampleWindow config key candidate now seen window).completeCohorts =
      window.completeCohorts + if candidate.complete config.providers then 1 else 0 := by
  unfold sampleWindow
  dsimp only
  split
  · rw [CoinWindow.insertCohort_completeCohorts, CoinWindow.insertCoverage_completeCohorts]
  · rw [CoinWindow.insertCoverage_completeCohorts, Nat.add_zero]

end Samples

/-- The cohort was committed from a complete canonical candidate of the base. -/
def CommittedFrom (config : BenchmarkConfig) (base : BaseKey) (pending : PendingBase)
    (cohort : CommittedCohort) : Prop :=
  ∃ content candidate serial, (content, candidate) ∈ canonical order config pending ∧
    candidate.complete config.providers = true ∧
    cohort = cohortEntry config (eventKey base content) candidate serial

/-- Cohorts in the rings after a settlement were there before, or come from the settled base. -/
theorem mem_cohorts_settle {key : BaseKey} {now : Nat} {evicted : Bool} {coin : String}
    {cohort : CommittedCohort}
    (member : cohort ∈ ((benchmark.settle order key now evicted).windows coin).cohorts) :
    cohort ∈ (benchmark.windows coin).cohorts ∨
      ∃ pending, benchmark.pending.lookup key = some pending ∧ coin = key.coin ∧
        CommittedFrom order benchmark.config key pending cohort := by
  cases found : benchmark.pending.lookup key with
  | none =>
      rw [settle_of_lookup_none order benchmark now evicted found] at member
      exact Or.inl member
  | some pending =>
      refine settle_induction order benchmark (fun state => ∀ cohort,
        cohort ∈ (state.windows coin).cohorts →
        cohort ∈ (benchmark.windows coin).cohorts ∨ ∃ found, some pending = some found ∧
          coin = key.coin ∧ CommittedFrom order benchmark.config key found cohort)
        found ?_ ?_ cohort member
      · intro cohort member
        rw [sealBase_windows order benchmark key pending now evicted CoinWindow.cohorts
          (fun _ _ => rfl)] at member
        exact Or.inl member
      · intro state content candidate sameConfig canonicalMember held cohort member
        rw [finalizeCandidate_windows order state _ candidate now _ CoinWindow.cohorts
          (fun _ _ => rfl), eventKey_coin] at member
        by_cases own : coin = key.coin
        · rw [if_pos own, sampleWindow_cohorts, sameConfig] at member
          by_cases complete : candidate.complete benchmark.config.providers = true
          · rw [if_pos complete] at member
            rcases mem_of_mem_insertCapped member with new | old
            · exact Or.inr ⟨pending, rfl, own, content, candidate, _, canonicalMember,
                complete, new⟩
            · exact held cohort old
          · rw [if_neg complete] at member
            exact held cohort member
        · rw [if_neg own] at member
          exact held cohort member

/-- An admitted candidate is a stored one without its late arrivals. -/
theorem mem_admitted {config : BenchmarkConfig} {pending : PendingBase} {content : ContentKey}
    {candidate : PendingCandidate}
    (member : (content, candidate) ∈ admitted order config pending) :
    ∃ stored, pending.candidates.lookup content = some stored ∧
      candidate =
        stored.withoutLate config.providers pending.firstObserved config.cohortTimeout := by
  unfold admitted at member
  obtain ⟨⟨storedContent, stored⟩, entry, same⟩ := List.mem_map.mp member
  cases same
  exact ⟨stored, HashMap.mem_entries_iff.mp (order.mem_arrange.mp entry), rfl⟩

/-- A kept arrival of an active provider was stored and in time. -/
theorem arrivals_withoutLate {candidate : PendingCandidate} {providers : List Provider}
    {firstObserved : Nat} {cohortTimeout : Nat} {provider : Provider}
    {arrival : Observation} (active : provider ∈ providers)
    (kept : (candidate.withoutLate providers firstObserved cohortTimeout).arrivals provider =
      some arrival) :
    candidate.arrivals provider = some arrival ∧
      arrival.received - firstObserved < cohortTimeout := by
  unfold PendingCandidate.withoutLate at kept
  dsimp only at kept
  split at kept
  · cases kept
  · next timely =>
      refine ⟨kept, ?_⟩
      have notLate := fun late => timely ⟨active, late⟩
      unfold PendingCandidate.arrivedAfterDeadline at notLate
      rw [kept, decide_eq_true_eq] at notLate
      exact Nat.lt_of_not_le notLate

end Benchmark

/-! ## Complete candidates -/

namespace PendingCandidate

variable {candidate : PendingCandidate} {providers : List Provider}

theorem arrival_of_complete (complete : candidate.complete providers = true)
    {provider : Provider} (active : provider ∈ providers) :
    ∃ arrival, candidate.arrivals provider = some arrival :=
  Option.isSome_iff_exists.mp (List.all_eq_true.mp complete provider active)

theorem received_le_latestArrival {provider : Provider} {arrival : Observation}
    (active : provider ∈ providers) (arrived : candidate.arrivals provider = some arrival) :
    arrival.received ≤ candidate.latestArrival providers := by
  unfold latestArrival
  induction providers with
  | nil => cases active
  | cons first rest ih =>
      rcases List.mem_cons.mp active with same | later
      · subst same
        rw [List.filterMap_cons_some arrived]
        exact Nat.le_max_left _ _
      · cases found : candidate.arrivals first with
        | none =>
            rw [List.filterMap_cons_none found]
            exact ih later
        | some earlier =>
            rw [List.filterMap_cons_some found]
            exact Nat.le_trans (ih later) (Nat.le_max_right _ _)

/-- The latest arrival is attained by an active provider that arrived. -/
theorem exists_latestArrival {provider : Provider} (active : provider ∈ providers)
    (arrived : candidate.hasArrival provider = true) :
    ∃ latest arrival, latest ∈ providers ∧ candidate.arrivals latest = some arrival ∧
      arrival.received = candidate.latestArrival providers := by
  unfold latestArrival
  induction providers generalizing provider with
  | nil => cases active
  | cons first rest ih =>
      cases found : candidate.arrivals first with
      | none =>
          rw [List.filterMap_cons_none found]
          have inRest : provider ∈ rest := by
            rcases List.mem_cons.mp active with same | later
            · subst same
              unfold hasArrival at arrived
              rw [found] at arrived
              cases arrived
            · exact later
          obtain ⟨latest, arrival, member, isArrival, greatest⟩ := ih inRest arrived
          exact ⟨latest, arrival, List.mem_cons_of_mem first member, isArrival, greatest⟩
      | some arrival =>
          rw [List.filterMap_cons_some found, List.map_cons, List.foldr_cons]
          by_cases later : ∃ other ∈ rest, candidate.hasArrival other = true
          · obtain ⟨other, inRest, otherArrived⟩ := later
            obtain ⟨latest, last, member, isArrival, greatest⟩ := ih inRest otherArrived
            rcases Nat.le_total (((rest.filterMap candidate.arrivals).map
                Observation.received).foldr max 0) arrival.received with below | above
            · exact ⟨first, arrival, List.mem_cons_self, found, (Nat.max_eq_left below).symm⟩
            · refine ⟨latest, last, List.mem_cons_of_mem first member, isArrival, ?_⟩
              rw [greatest, Nat.max_eq_right above]
          · have noneLater : rest.filterMap candidate.arrivals = [] := by
              rw [List.filterMap_eq_nil_iff]
              intro other inRest
              cases otherFound : candidate.arrivals other with
              | none => rfl
              | some _ =>
                  refine absurd ⟨other, inRest, ?_⟩ later
                  unfold hasArrival
                  rw [otherFound]
                  rfl
            rw [noneLater]
            exact ⟨first, arrival, List.mem_cons_self, found, (Nat.max_zero _).symm⟩

end PendingCandidate

end MarketBenchmark
