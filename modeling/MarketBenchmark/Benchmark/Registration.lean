import MarketBenchmark.Benchmark.Calls

/-!
# Only configured coins are touched

The maps keyed by coin are total in the model and have a key for every
configured coin in the code.  In every reachable state all keys belong to
configured coins, and the windows and counters of all others are untouched.
-/

namespace MarketBenchmark

open Foundation.HashMaps
open Foundation.Runs

namespace Benchmark

variable {order : IterationOrder} {benchmark : Benchmark}

/-- Every key of the state belongs to a configured coin. -/
structure Registered (benchmark : Benchmark) : Prop where
  pending : ∀ base ∈ benchmark.pending, base.coin ∈ benchmark.config.coins
  settledBases : ∀ base ∈ benchmark.settledBases, base.coin ∈ benchmark.config.coins
  settled : ∀ key ∈ benchmark.settled, key.coin ∈ benchmark.config.coins
  windows : ∀ coin, coin ∉ benchmark.config.coins → benchmark.windows coin = {}
  counters : ∀ coin provider, coin ∉ benchmark.config.coins →
    benchmark.counters coin provider = {}

theorem Registered.updateWindow (registered : benchmark.Registered) {coin : String}
    (own : coin ∈ benchmark.config.coins) (change : CoinWindow → CoinWindow) :
    (benchmark.updateWindow coin change).Registered := by
  refine ⟨registered.pending, registered.settledBases, registered.settled, ?_,
    registered.counters⟩
  intro other unregistered
  rw [updateWindow_windows, if_neg]
  · exact registered.windows other unregistered
  · intro same
    rw [same] at unregistered
    exact unregistered own

theorem Registered.bump (registered : benchmark.Registered) {coin : String}
    (own : coin ∈ benchmark.config.coins) (provider : Provider) (increment : ProviderCounters) :
    (benchmark.bump coin provider increment).Registered := by
  refine ⟨registered.pending, registered.settledBases, registered.settled, registered.windows, ?_⟩
  intro other someProvider unregistered
  rw [bump_counters, if_neg, add_zero]
  · exact registered.counters other someProvider unregistered
  · rintro ⟨same, _⟩
    rw [same] at unregistered
    exact unregistered own

theorem Registered.insertSettledBase (registered : benchmark.Registered) {key : BaseKey}
    (own : key.coin ∈ benchmark.config.coins) (now : Nat) :
    (benchmark.insertSettledBase order key now).Registered := by
  rcases insertSettledBase_cases order benchmark key now with same | ⟨oldest, present, _, same⟩
  · rw [same]
    exact ⟨registered.pending, HashMap.forall_mem_insert own registered.settledBases,
      registered.settled, registered.windows, registered.counters⟩
  · have evicted := registered.updateWindow (registered.settledBases oldest present)
      fun window => window.evictState now
    rw [same]
    have left := HashMap.forall_mem_erase registered.settledBases oldest
    exact ⟨evicted.pending, HashMap.forall_mem_insert own left, evicted.settled, evicted.windows,
      evicted.counters⟩

theorem Registered.insertSettled (registered : benchmark.Registered) {key : EventKey}
    (own : key.coin ∈ benchmark.config.coins) (settled : SettledCohort) :
    (benchmark.insertSettled order key settled).Registered := by
  rcases insertSettled_cases order benchmark key settled with same | ⟨oldest, present, _, same⟩
  · rw [same]
    exact ⟨registered.pending, registered.settledBases,
      HashMap.forall_mem_insert own registered.settled, registered.windows, registered.counters⟩
  · have evicted := registered.updateWindow (registered.settled oldest present)
      fun window => window.evictState settled.settledAt
    rw [same]
    have left := HashMap.forall_mem_erase registered.settled oldest
    exact ⟨evicted.pending, evicted.settledBases, HashMap.forall_mem_insert own left,
      evicted.windows, evicted.counters⟩

/-- Counters may change for configured coins. -/
theorem Registered.recount (registered : benchmark.Registered) (counters : CounterTable)
    (same : ∀ coin provider, coin ∉ benchmark.config.coins → counters coin provider = {}) :
    Registered { benchmark with counters := counters } :=
  ⟨registered.pending, registered.settledBases, registered.settled, registered.windows, same⟩

theorem Registered.finalizeCandidate (registered : benchmark.Registered) {key : EventKey}
    (own : key.coin ∈ benchmark.config.coins) (candidate : PendingCandidate) (now : Nat)
    (seen : Provider → Bool) :
    (benchmark.finalizeCandidate order key candidate now seen).Registered := by
  have counters := finalizeCandidate_counters order benchmark key candidate now seen
  rw [finalizeCandidate_eq] at counters ⊢
  rw [insertSettled_counters] at counters
  have counted : Registered { benchmark with
      counters := benchmark.config.providers.foldl (fun counters provider =>
        CounterTable.bump counters key.coin provider
          (outcomeOf candidate seen provider).increment) benchmark.counters } := by
    refine registered.recount _ fun coin provider unregistered => ?_
    refine (counters coin provider).trans ?_
    rw [if_neg, add_zero]
    · exact registered.counters coin provider unregistered
    · rintro ⟨same, _⟩
      rw [same] at unregistered
      exact unregistered own
  have sampled := counted.updateWindow own (sampleWindow benchmark.config key candidate now seen)
  exact sampled.insertSettled own _

theorem Registered.erasePending (registered : benchmark.Registered) (key : BaseKey) :
    Registered { benchmark with pending := benchmark.pending.erase key } :=
  ⟨fun base member => registered.pending base (AList.mem_erase.mp member).2,
    registered.settledBases, registered.settled, registered.windows, registered.counters⟩

theorem Registered.sealBase (registered : benchmark.Registered) {key : BaseKey}
    (own : key.coin ∈ benchmark.config.coins) (pending : PendingBase) (now : Nat)
    (evicted : Bool) : (benchmark.sealBase order key pending now evicted).Registered := by
  have counters := sealBase_counters order benchmark key pending now evicted
  have inserted : (Benchmark.insertSettledBase order
      { benchmark with pending := benchmark.pending.erase key } key now).Registered :=
    (registered.erasePending key).insertSettledBase own now
  have sealed : (if evicted = true then
      (Benchmark.insertSettledBase order
        { benchmark with pending := benchmark.pending.erase key } key now).updateWindow key.coin
          fun window => window.evictState now
      else Benchmark.insertSettledBase order
        { benchmark with pending := benchmark.pending.erase key } key now).Registered := by
    split
    · refine inserted.updateWindow ?_ _
      rw [insertSettledBase_config]
      exact own
    · exact inserted
  have sameConfig := sealBase_config order benchmark key pending now evicted
  refine sealed.recount _ fun coin provider unregistered => ?_
  refine (counters coin provider).trans ?_
  change coin ∉ (benchmark.sealBase order key pending now evicted).config.coins at unregistered
  rw [sameConfig] at unregistered
  rw [if_neg, add_zero]
  · exact registered.counters coin provider unregistered
  · rintro ⟨same, _⟩
    rw [same] at unregistered
    exact unregistered own

theorem Registered.settle (registered : benchmark.Registered) (key : BaseKey) (now : Nat)
    (evicted : Bool) : (benchmark.settle order key now evicted).Registered := by
  cases found : benchmark.pending.lookup key with
  | none =>
      rw [settle_of_lookup_none order benchmark now evicted found]
      exact registered
  | some pending =>
      have own := registered.pending key (HashMap.mem_of_lookup found)
      refine settle_induction order benchmark Registered found ?_ ?_
      · exact registered.sealBase own pending now evicted
      · intro state content candidate sameConfig _ held
        refine held.finalizeCandidate ?_ candidate now _
        rw [sameConfig]
        exact own

theorem Registered.withPending (registered : benchmark.Registered) {base : BaseKey}
    (own : base.coin ∈ benchmark.config.coins) (cohort : PendingBase) :
    (benchmark.withPending base cohort).Registered := by
  exact ⟨HashMap.forall_mem_insert own registered.pending, registered.settledBases,
    registered.settled, registered.windows, registered.counters⟩

theorem Registered.store {event : MarketEvent} (registered : benchmark.Registered)
    (own : event.key.coin ∈ benchmark.config.coins) :
    (benchmark.store order event).Registered := by
  have opened : ∀ cohort, (benchmark.withPending event.key.base cohort).Registered :=
    fun cohort => registered.withPending own cohort
  rw [store_eq]
  split_ifs
  · exact Registered.updateWindow ((opened _).bump own _ _) own _
  · exact (opened _).bump own _ _
  · exact (opened _).settle event.key.base event.received false
  · exact opened _

theorem Registered.recordAccepted {event : MarketEvent} (registered : benchmark.Registered)
    (own : event.key.coin ∈ benchmark.config.coins) :
    (benchmark.recordAccepted order event).Registered := by
  refine recordAccepted_induction order benchmark Registered Registered
    (registered.bump own _ _) ?_ ?_ ?_ ?_
  · exact fun _ _ _ _ _ held => held.settle event.key.base event.received false
  · exact fun _ oldest _ _ _ _ held => held.settle oldest event.received true
  · intro state sameConfig _ held
    refine held.bump ?_ _ _
    rw [sameConfig]
    exact own
  · intro state sameConfig _ _ held
    refine held.store ?_
    rw [sameConfig]
    exact own

theorem Registered.step {call : Call} {after : Benchmark} (registered : benchmark.Registered)
    (stepped : benchmark.step call = some after) : after.Registered := by
  refine step_induction Registered stepped registered ?_ ?_ ?_ ?_ ?_ ?_ ?_
  · exact fun _ provider increment own _ => registered.bump own provider increment
  · exact fun _ event increment _ own _ _ _ =>
      Registered.updateWindow (registered.bump own event.provider increment) own _
  · exact fun _ _ _ own _ => registered.recordAccepted own
  · exact fun _ _ key now _ _ _ held => held.settle key now false
  · intro state now _ _ held
    refine ⟨held.pending, ?_, ?_, ?_, held.counters⟩
    · intro base member
      obtain ⟨_, found, _⟩ := HashMap.mem_retain.mp member
      exact held.settledBases base (HashMap.mem_of_lookup found)
    · intro key member
      obtain ⟨_, found, _⟩ := HashMap.mem_retain.mp member
      exact held.settled key (HashMap.mem_of_lookup found)
    · intro coin unregistered
      change CoinWindow.prune (state.windows coin) _ _ = {}
      rw [held.windows coin unregistered]
      rfl
  · exact fun _ _ held =>
      ⟨held.pending, held.settledBases, held.settled, held.windows, held.counters⟩
  · intro interval _ _ _
    refine ⟨registered.pending, registered.settledBases, registered.settled, ?_,
      registered.counters⟩
    intro coin unregistered
    change markOutcomesReported (benchmark.windows coin) _ = {}
    rw [registered.windows coin unregistered]
    rfl

theorem registered_new (config : BenchmarkConfig) (now wallNow : Nat) :
    (Benchmark.new config now wallNow).Registered := by
  refine ⟨?_, ?_, ?_, fun _ _ => rfl, fun _ _ _ => rfl⟩
  · exact fun base member => (AList.notMem_empty base member).elim
  · exact fun base member => (AList.notMem_empty base member).elim
  · exact fun key member => (AList.notMem_empty key member).elim

/-- Whatever is called, other coins keep empty windows and zero counters. -/
theorem registered_run {config : BenchmarkConfig} {startedAt startedWallMs : Nat}
    {calls : List Call} {final : Benchmark}
    (executed : run Benchmark.step (Benchmark.new config startedAt startedWallMs) calls =
      some final) : final.Registered :=
  run_preserves Registered (fun _ _ _ held stepped => held.step stepped)
    (registered_new config startedAt startedWallMs) executed

end Benchmark

end MarketBenchmark
