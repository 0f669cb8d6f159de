import MarketBenchmark.Benchmark.Calls

/-!
# Conservation of observations

Every observed event of an active provider is either accounted for in one of
five counters or still stored in a pending candidate.  Recording an event first
owes one observation and every way out of it pays the debt; a settlement moves
stored arrivals into the counters, one for one.
-/

namespace MarketBenchmark

open Foundation.HashMaps
open Foundation.Runs

/-! ## Counter measures -/

namespace ProviderCounters

/-- The counters in which an observation can end up. -/
def accounted : ProviderCounters →+ Nat where
  toFun counters := counters.matched + counters.orphaned + counters.duplicate +
    counters.late + counters.signatureOverflow
  map_zero' := rfl
  map_add' first second := by
    simp only [add_def]
    omega

def observations : ProviderCounters →+ Nat where
  toFun := observed
  map_zero' := rfl
  map_add' _ _ := rfl

/-- Every canonical candidate is matched or missing. -/
def covered : ProviderCounters →+ Nat where
  toFun counters := counters.matched + counters.missing
  map_zero' := rfl
  map_add' first second := by
    simp only [add_def]
    omega

def misses : ProviderCounters →+ Nat where
  toFun := missing
  map_zero' := rfl
  map_add' _ _ := rfl

def mismatches : ProviderCounters →+ Nat where
  toFun := mismatch
  map_zero' := rfl
  map_add' _ _ := rfl

end ProviderCounters

open ProviderCounters

/-! ## Stored arrivals -/

/-- The candidates of a base that hold an arrival of the provider. -/
def PendingBase.arrivalCount (pending : PendingBase) (provider : Provider) : Nat :=
  HashMap.total (fun _ candidate => (candidate.hasArrival provider).toNat) pending.candidates

namespace Benchmark

/-- The arrivals of a provider stored in the pending candidates of a coin. -/
def storedArrivals (benchmark : Benchmark) (coin : String) (provider : Provider) : Nat :=
  HashMap.total (fun base pending =>
    if base.coin = coin then pending.arrivalCount provider else 0) benchmark.pending

/-- Observations are accounted for, stored, or owed. -/
def Owing (owed : String → Provider → Nat) (benchmark : Benchmark) : Prop :=
  ∀ coin provider, provider ∈ benchmark.config.providers →
    observations (benchmark.counters coin provider) =
      accounted (benchmark.counters coin provider) + benchmark.storedArrivals coin provider +
        owed coin provider

/-- What holds of the coverage counters of every coin. -/
structure Covering (benchmark : Benchmark) : Prop where
  covered_eq : ∀ coin first second, first ∈ benchmark.config.providers →
    second ∈ benchmark.config.providers →
    covered (benchmark.counters coin first) = covered (benchmark.counters coin second)
  mismatches_le : ∀ coin provider,
    mismatches (benchmark.counters coin provider) ≤ misses (benchmark.counters coin provider)
  reference_misses : benchmark.config.canonicalByAnyArrival = false → ∀ coin,
    misses (benchmark.counters coin benchmark.config.referenceProvider) = 0

/-! ## Settlement -/

section Settlement

variable (config : BenchmarkConfig) (firstObserved : Nat) (seen : Provider → Bool)
  (candidate : PendingCandidate) {provider : Provider}

theorem withoutLate_hasArrival (active : provider ∈ config.providers) :
    (candidate.withoutLate config.providers firstObserved config.cohortTimeout).hasArrival
        provider =
      (candidate.hasArrival provider &&
        !candidate.arrivedAfterDeadline firstObserved config.cohortTimeout provider) := by
  unfold PendingCandidate.withoutLate PendingCandidate.hasArrival
  dsimp only
  cases late : candidate.arrivedAfterDeadline firstObserved config.cohortTimeout provider with
  | false => simp
  | true => simp [active]

/-- A late arrival is an arrival. -/
theorem hasArrival_of_late
    (late : candidate.arrivedAfterDeadline firstObserved config.cohortTimeout provider = true) :
    candidate.hasArrival provider = true := by
  unfold PendingCandidate.arrivedAfterDeadline at late
  unfold PendingCandidate.hasArrival
  cases arrived : candidate.arrivals provider with
  | none =>
      rw [arrived] at late
      cases late
  | some arrival => rfl

/-- A kept arrival is matched in canonical content and orphaned elsewhere. -/
theorem accounted_kept (kept : PendingCandidate) :
    accounted (if kept.isReference config then (outcomeOf kept seen provider).increment
      else if kept.hasArrival provider then { orphaned := 1 } else 0) =
      (kept.hasArrival provider).toNat := by
  unfold outcomeOf
  cases kept.isReference config <;> cases kept.hasArrival provider <;>
    cases seen provider <;> rfl

/-- Settling a candidate accounts for its arrival, if it has one. -/
theorem accounted_settledIncrement (active : provider ∈ config.providers) :
    accounted (settledIncrement config firstObserved seen candidate provider) =
      (candidate.hasArrival provider).toNat := by
  unfold settledIncrement
  dsimp only
  rw [map_add, accounted_kept, withoutLate_hasArrival config firstObserved candidate active]
  cases late : candidate.arrivedAfterDeadline firstObserved config.cohortTimeout provider with
  | true =>
      rw [hasArrival_of_late config firstObserved candidate late]
      rfl
  | false =>
      rw [Bool.not_false, Bool.and_true]
      exact Nat.zero_add _

theorem observations_settledIncrement :
    observations (settledIncrement config firstObserved seen candidate provider) = 0 := by
  unfold settledIncrement outcomeOf
  dsimp only
  rw [map_add]
  split_ifs <;> rfl

/-- Every active provider covers the same candidates: the canonical ones. -/
theorem covered_settledIncrement :
    covered (settledIncrement config firstObserved seen candidate provider) =
      ((candidate.withoutLate config.providers firstObserved config.cohortTimeout).isReference
        config).toNat := by
  unfold settledIncrement outcomeOf
  dsimp only
  rw [map_add]
  have late : ∀ passed : Bool,
      covered (if passed = true then ({ late := 1 } : ProviderCounters) else 0) = 0 := by decide
  rw [late, Nat.zero_add]
  cases (candidate.withoutLate config.providers firstObserved config.cohortTimeout).isReference
    config <;> cases (candidate.withoutLate config.providers firstObserved
      config.cohortTimeout).hasArrival provider <;> cases seen provider <;> rfl

theorem mismatches_settledIncrement_le :
    mismatches (settledIncrement config firstObserved seen candidate provider) ≤
      misses (settledIncrement config firstObserved seen candidate provider) := by
  unfold settledIncrement outcomeOf
  dsimp only
  rw [map_add, map_add]
  split_ifs <;> decide

/-- Where canonical content is the reference provider's, the reference misses nothing. -/
theorem misses_settledIncrement_reference (byReference : config.canonicalByAnyArrival = false) :
    misses (settledIncrement config firstObserved seen candidate config.referenceProvider) = 0 := by
  unfold settledIncrement outcomeOf PendingCandidate.isReference
  dsimp only
  rw [map_add, byReference]
  split_ifs <;> first | rfl | contradiction

end Settlement

variable (order : IterationOrder) (benchmark : Benchmark)

/-- A settlement adds to a measure of the counters what its candidates add. -/
theorem measure_settle {Measured : Type} [AddCommMonoid Measured]
    (measure : ProviderCounters →+ Measured) {key : BaseKey}
    {pending : PendingBase} (now : Nat) (evicted : Bool)
    (found : benchmark.pending.lookup key = some pending) (coin : String)
    (provider : Provider) :
    measure ((benchmark.settle order key now evicted).counters coin provider) =
      measure (benchmark.counters coin provider) +
        if coin = key.coin ∧ provider ∈ benchmark.config.providers then
          (pending.candidates.entries.map fun entry =>
            measure (settledIncrement benchmark.config pending.firstObserved
              (noncanonicalSeen benchmark.config (admitted order benchmark.config pending))
              entry.2 provider)).sum
        else 0 := by
  rw [settle_counters order benchmark now evicted found, map_add]
  congr 1
  split
  · rw [map_list_sum, List.map_map]
    rfl
  · rw [map_zero]

variable {order benchmark}

/-- A settlement moves the stored arrivals of its base into the counters. -/
theorem Owing.settle {owed : String → Provider → Nat} (owing : benchmark.Owing owed)
    (key : BaseKey) (now : Nat) (evicted : Bool) :
    (benchmark.settle order key now evicted).Owing owed := by
  cases found : benchmark.pending.lookup key with
  | none =>
      rw [settle_of_lookup_none order benchmark now evicted found]
      exact owing
  | some pending =>
      intro coin provider active
      rw [settle_config] at active
      have before := owing coin provider active
      have observed := measure_settle order benchmark observations now evicted found coin provider
      have moved := measure_settle order benchmark accounted now evicted found coin provider
      simp only [observations_settledIncrement, List.map_const', List.sum_replicate, nsmul_zero,
        ite_self, Nat.add_zero] at observed
      simp only [accounted_settledIncrement _ _ _ _ active, active, and_true] at moved
      have stored : benchmark.storedArrivals coin provider =
          (if key.coin = coin then pending.arrivalCount provider else 0) +
            (benchmark.settle order key now evicted).storedArrivals coin provider := by
        unfold storedArrivals
        rw [settle_pending]
        exact HashMap.total_erase found
      rw [observed, moved]
      unfold PendingBase.arrivalCount HashMap.total at stored
      dsimp only at stored
      by_cases own : coin = key.coin
      · rw [if_pos own.symm] at stored
        rw [if_pos own]
        omega
      · rw [if_neg fun same => own same.symm] at stored
        rw [if_neg own]
        omega

theorem Covering.settle (covering : benchmark.Covering) (key : BaseKey) (now : Nat)
    (evicted : Bool) : (benchmark.settle order key now evicted).Covering := by
  cases found : benchmark.pending.lookup key with
  | none =>
      rw [settle_of_lookup_none order benchmark now evicted found]
      exact covering
  | some pending =>
      have added := fun measure : ProviderCounters →+ Nat =>
        measure_settle order benchmark measure now evicted found
      constructor
      · intro coin first second firstActive secondActive
        rw [settle_config] at firstActive secondActive
        rw [added, added, covering.covered_eq coin first second firstActive secondActive]
        simp only [covered_settledIncrement, firstActive, secondActive]
      · intro coin provider
        rw [added, added]
        refine Nat.add_le_add (covering.mismatches_le coin provider) ?_
        split
        · exact List.sum_le_sum fun entry _ => mismatches_settledIncrement_le ..
        · exact Nat.le_refl 0
      · intro byReference coin
        rw [settle_config] at byReference ⊢
        rw [added, covering.reference_misses byReference coin]
        simp only [misses_settledIncrement_reference _ _ _ _ byReference, List.map_const',
          List.sum_replicate, nsmul_zero, ite_self, Nat.add_zero]

/-! ## Recording -/

/-- Counters outside the coverage ones do not matter for coverage. -/
theorem Covering.bump (covering : benchmark.Covering) (coin : String) (provider : Provider)
    (increment : ProviderCounters) (noCover : covered increment = 0)
    (noMismatch : mismatches increment = 0) :
    (benchmark.bump coin provider increment).Covering := by
  have noMiss : misses increment = 0 := Nat.eq_zero_of_add_eq_zero_left noCover
  have same : ∀ (measure : ProviderCounters →+ Nat), measure increment = 0 →
      ∀ otherCoin other, measure ((benchmark.bump coin provider increment).counters
        otherCoin other) = measure (benchmark.counters otherCoin other) := by
    intro measure nothing otherCoin other
    rw [bump_counters, map_add]
    split
    · rw [nothing, Nat.add_zero]
    · rw [map_zero, Nat.add_zero]
  constructor
  · intro otherCoin first second firstActive secondActive
    rw [same covered noCover, same covered noCover]
    exact covering.covered_eq otherCoin first second firstActive secondActive
  · intro otherCoin other
    rw [same mismatches noMismatch, same misses noMiss]
    exact covering.mismatches_le otherCoin other
  · intro byReference otherCoin
    rw [same misses noMiss]
    exact covering.reference_misses byReference otherCoin

/-- The debt of one observation. -/
def oneOwed (event : MarketEvent) (coin : String) (provider : Provider) : Nat :=
  if coin = event.key.coin ∧ provider = event.provider then 1 else 0

theorem Owing.observe {event : MarketEvent} (owing : benchmark.Owing fun _ _ => 0) :
    (benchmark.bump event.key.coin event.provider { observed := 1 }).Owing (oneOwed event) := by
  intro coin provider active
  have before := owing coin provider active
  rw [bump_counters, map_add, map_add]
  change _ = _ + benchmark.storedArrivals coin provider + _
  unfold oneOwed
  dsimp only at before
  split
  · change observations (benchmark.counters coin provider) + 1 =
      accounted (benchmark.counters coin provider) + 0 + _ + 1
    omega
  · rw [map_zero, map_zero]
    omega

/-- Counting the event in one of the five counters pays the debt. -/
theorem Owing.pay {event : MarketEvent} (owing : benchmark.Owing (oneOwed event))
    {increment : ProviderCounters} (notObserved : observations increment = 0)
    (counted : accounted increment = 1) :
    (benchmark.bump event.key.coin event.provider increment).Owing fun _ _ => 0 := by
  intro coin provider active
  have before := owing coin provider active
  rw [bump_counters, map_add, map_add]
  change _ = _ + benchmark.storedArrivals coin provider + _
  unfold oneOwed at before
  dsimp only
  split
  · next own =>
      rw [if_pos own] at before
      omega
  · next other =>
      rw [if_neg other] at before
      rw [map_zero, map_zero]
      omega

theorem storedArrivals_withPending (benchmark : Benchmark) (event : MarketEvent)
    (cohort : PendingBase) (coin : String) (provider : Provider) :
    (benchmark.withPending event.key.base cohort).storedArrivals coin provider +
        (if event.key.coin = coin then
          (benchmark.openedBase event).arrivalCount provider else 0) =
      benchmark.storedArrivals coin provider +
        if event.key.coin = coin then cohort.arrivalCount provider else 0 := by
  have inserted := HashMap.total_insert (fun base pending =>
    if base.coin = coin then PendingBase.arrivalCount pending provider else 0)
    benchmark.pending event.key.base cohort
  have weightless : (if event.key.base.coin = coin then
      (PendingBase.new event.received).arrivalCount provider else 0) = 0 := by
    split <;> rfl
  have before := HashMap.total_eq_getD (fun base pending =>
    if base.coin = coin then PendingBase.arrivalCount pending provider else 0)
    benchmark.pending event.key.base weightless
  unfold storedArrivals
  rw [withPending_pending, inserted, before]
  change (if event.key.coin = coin then cohort.arrivalCount provider else 0) + _ +
    (if event.key.coin = coin then (benchmark.openedBase event).arrivalCount provider else 0) =
    (if event.key.coin = coin then (benchmark.openedBase event).arrivalCount provider else 0) +
      _ + _
  omega

theorem arrivalCount_heldBase (benchmark : Benchmark) (event : MarketEvent)
    (candidate : PendingCandidate) (provider : Provider) :
    (benchmark.heldBase event candidate).arrivalCount provider +
        ((benchmark.openedCandidate event).hasArrival provider).toNat =
      (benchmark.openedBase event).arrivalCount provider +
        (candidate.hasArrival provider).toNat := by
  have inserted := HashMap.total_insert (fun _ candidate =>
    (PendingCandidate.hasArrival candidate provider).toNat)
    (benchmark.openedBase event).candidates event.key.content candidate
  have weightless : ((PendingCandidate.new event.received).hasArrival provider).toNat = 0 := rfl
  have before := HashMap.total_eq_getD (fun _ candidate =>
    (PendingCandidate.hasArrival candidate provider).toNat)
    (benchmark.openedBase event).candidates event.key.content weightless
  unfold PendingBase.arrivalCount
  change HashMap.total _ ((benchmark.openedBase event).candidates.insert _ _) + _ = _
  rw [inserted, before]
  unfold openedCandidate PendingCandidate.hasArrival
  dsimp only
  omega

theorem withArrival_hasArrival (candidate : PendingCandidate) (event : MarketEvent)
    (provider : Provider) :
    (withArrival candidate event).hasArrival provider =
      (decide (provider = event.provider) || candidate.hasArrival provider) := by
  unfold withArrival PendingCandidate.hasArrival
  dsimp only
  rw [Function.update_apply]
  split
  · next same => simp [same]
  · next other => simp [other]

/-- Storing a new arrival pays the debt of its event. -/
theorem Owing.keep {event : MarketEvent} (owing : benchmark.Owing (oneOwed event))
    (fresh : (benchmark.openedCandidate event).hasArrival event.provider = false) :
    (benchmark.withPending event.key.base (benchmark.heldBase event
      (withArrival (benchmark.openedCandidate event) event))).Owing fun _ _ => 0 := by
  intro coin provider active
  have before := owing coin provider active
  dsimp only at before ⊢
  have pendings := storedArrivals_withPending benchmark event
    (benchmark.heldBase event (withArrival (benchmark.openedCandidate event) event))
    coin provider
  have candidates := arrivalCount_heldBase benchmark event
    (withArrival (benchmark.openedCandidate event) event) provider
  rw [withArrival_hasArrival] at candidates
  rw [withPending_counters]
  unfold oneOwed at before
  by_cases ownCoin : coin = event.key.coin
  · rw [if_pos ownCoin.symm, if_pos ownCoin.symm] at pendings
    by_cases own : provider = event.provider
    · rw [if_pos ⟨ownCoin, own⟩] at before
      rw [own, fresh] at candidates
      rw [own] at pendings before ⊢
      simp only [decide_true, Bool.or_false, Bool.toNat_true, Bool.toNat_false] at candidates
      omega
    · rw [if_neg fun both => own both.2] at before
      simp only [own, decide_false, Bool.false_or] at candidates
      omega
  · rw [if_neg fun same => ownCoin same.symm, if_neg fun same => ownCoin same.symm] at pendings
    rw [if_neg fun both => ownCoin both.1] at before
    omega

/-- Pending bases with the same arrivals are the same to conservation. -/
theorem Owing.reopen {owed : String → Provider → Nat} (owing : benchmark.Owing owed)
    (event : MarketEvent) (cohort : PendingBase)
    (sameCount : ∀ provider, cohort.arrivalCount provider =
      (benchmark.openedBase event).arrivalCount provider) :
    (benchmark.withPending event.key.base cohort).Owing owed := by
  intro coin provider active
  have before := owing coin provider active
  have pendings := storedArrivals_withPending benchmark event cohort coin provider
  rw [sameCount] at pendings
  rw [withPending_counters]
  omega

/-- Storing an event pays its debt, whichever way it is stored. -/
theorem Owing.store {event : MarketEvent} (owing : benchmark.Owing (oneOwed event)) :
    (benchmark.store order event).Owing fun _ _ => 0 := by
  rw [store_eq]
  split
  · have opened := owing.reopen event (benchmark.openedBase event) fun _ => rfl
    exact opened.pay rfl rfl
  split
  · have opened := owing.reopen event
      (benchmark.heldBase event (benchmark.openedCandidate event)) fun provider =>
        Nat.add_right_cancel (arrivalCount_heldBase benchmark event _ provider)
    exact opened.pay rfl rfl
  · next fresh =>
      have kept := owing.keep (Bool.eq_false_iff.mpr fresh)
      split
      · exact kept.settle event.key.base event.received false
      · exact kept

theorem Owing.recordSealed {event : MarketEvent} (owing : benchmark.Owing (oneOwed event)) :
    (benchmark.recordSealed event).Owing fun _ _ => 0 := by
  unfold Benchmark.recordSealed
  dsimp only
  refine owing.pay ?_ ?_
  · split <;> split <;> rfl
  · split <;> split <;> rfl

/-- Every exit of an accepted event counts or stores it exactly once. -/
theorem Owing.recordAccepted {event : MarketEvent} (owing : benchmark.Owing fun _ _ => 0) :
    (benchmark.recordAccepted order event).Owing fun _ _ => 0 := by
  refine recordAccepted_induction order benchmark (Owing (oneOwed event))
    (Owing fun _ _ => 0) owing.observe ?_ ?_ ?_ ?_
  · intro state pending _ _ _ held
    exact held.settle event.key.base event.received false
  · intro state oldest _ _ _ _ held
    exact held.settle oldest event.received true
  · intro state _ _ held
    exact held.recordSealed
  · intro state _ _ _ held
    exact held.store

theorem Covering.store {event : MarketEvent} (covering : benchmark.Covering) :
    (benchmark.store order event).Covering := by
  have opened : ∀ cohort, (benchmark.withPending event.key.base cohort).Covering :=
    fun cohort => ⟨covering.covered_eq, covering.mismatches_le, covering.reference_misses⟩
  rw [store_eq]
  split_ifs
  · have counted := (opened (benchmark.openedBase event)).bump event.key.coin event.provider
      { signatureOverflow := 1 } rfl rfl
    exact ⟨counted.covered_eq, counted.mismatches_le, counted.reference_misses⟩
  · exact (opened _).bump event.key.coin event.provider { duplicate := 1 } rfl rfl
  · exact (opened _).settle event.key.base event.received false
  · exact opened _

theorem Covering.recordAccepted {event : MarketEvent} (covering : benchmark.Covering) :
    (benchmark.recordAccepted order event).Covering := by
  refine recordAccepted_induction order benchmark Covering Covering
    (covering.bump event.key.coin event.provider { observed := 1 } rfl rfl) ?_ ?_ ?_ ?_
  · intro state pending _ _ _ held
    exact held.settle event.key.base event.received false
  · intro state oldest _ _ _ _ held
    exact held.settle oldest event.received true
  · intro state _ _ held
    unfold Benchmark.recordSealed
    dsimp only
    refine held.bump event.key.coin event.provider _ ?_ ?_
    · split <;> split <;> rfl
    · split <;> split <;> rfl
  · intro state _ _ _ held
    exact held.store

/-! ## Runs -/

/-- Sideline counters neither observe nor account for anything. -/
theorem Owing.sideline {owed : String → Provider → Nat} (owing : benchmark.Owing owed)
    (coin : String) (provider : Provider) {increment : ProviderCounters}
    (side : Sideline increment) : (benchmark.bump coin provider increment).Owing owed := by
  obtain ⟨negativeLatency, futureTimestamp, reconnects, gaps, replays, replayGaps, rfl⟩ := side
  intro otherCoin other active
  have before := owing otherCoin other active
  rw [bump_counters, map_add, map_add]
  change _ = _ + benchmark.storedArrivals otherCoin other + _
  split
  · exact before
  · exact before

theorem Covering.sideline (covering : benchmark.Covering) (coin : String) (provider : Provider)
    {increment : ProviderCounters} (side : Sideline increment) :
    (benchmark.bump coin provider increment).Covering := by
  obtain ⟨negativeLatency, futureTimestamp, reconnects, gaps, replays, replayGaps, rfl⟩ := side
  exact covering.bump coin provider _ rfl rfl

/-- Observations are conserved by every call. -/
theorem Owing.step {call : Call} {after : Benchmark} (owing : benchmark.Owing fun _ _ => 0)
    (stepped : benchmark.step call = some after) : after.Owing fun _ _ => 0 :=
  step_induction (Owing fun _ _ => 0) stepped owing
    (fun coin provider _ _ side => owing.sideline coin provider side)
    (fun _ event _ _ _ _ _ side => owing.sideline event.key.coin event.provider side)
    (fun _ _ _ _ _ => owing.recordAccepted)
    (fun _ _ key now _ _ _ held => held.settle key now false)
    (fun _ _ _ _ held => held) (fun _ _ held => held) (fun _ _ _ _ => owing)

/-- Coverage stays balanced under every call. -/
theorem Covering.step {call : Call} {after : Benchmark} (covering : benchmark.Covering)
    (stepped : benchmark.step call = some after) : after.Covering :=
  have unmoved : ∀ {state other : Benchmark}, state.Covering →
      other.config = state.config → other.counters = state.counters → other.Covering := by
    intro state other held sameConfig sameCounters
    constructor
    · rw [sameConfig, sameCounters]
      exact held.covered_eq
    · rw [sameCounters]
      exact held.mismatches_le
    · rw [sameConfig, sameCounters]
      exact held.reference_misses
  step_induction Covering stepped covering
    (fun coin provider _ _ side => covering.sideline coin provider side)
    (fun _ event _ _ _ _ _ side =>
      unmoved (covering.sideline event.key.coin event.provider side) rfl rfl)
    (fun _ _ _ _ _ => covering.recordAccepted)
    (fun _ _ key now _ _ _ held => held.settle key now false)
    (fun _ _ _ _ held => unmoved held rfl rfl) (fun _ _ held => unmoved held rfl rfl)
    (fun _ _ _ _ => unmoved covering rfl rfl)

variable {config : BenchmarkConfig} {startedAt : Nat} {startedWallMs : Nat}

theorem Owing.new : (Benchmark.new config startedAt startedWallMs).Owing fun _ _ => 0 :=
  fun _ _ _ => rfl

theorem Covering.new : (Benchmark.new config startedAt startedWallMs).Covering :=
  ⟨fun _ _ _ _ _ => rfl, fun _ _ => Nat.le_refl 0, fun _ _ => rfl⟩

/--
In every reachable state each observation of an active provider is accounted
for once or still stored, every active provider covers the same number of
canonical candidates, mismatches are missing, and a reference provider never
misses.
-/
theorem observations_conserved {calls : List Call} {final : Benchmark}
    (executed : run Benchmark.step (Benchmark.new config startedAt startedWallMs) calls =
      some final)
    (coin : String) {provider : Provider} (active : provider ∈ config.providers) :
    let counters := final.counters coin provider
    (counters.observed = counters.matched + counters.orphaned + counters.duplicate +
      counters.late + counters.signatureOverflow + final.storedArrivals coin provider) ∧
    (∀ other ∈ config.providers,
      (final.counters coin other).matched + (final.counters coin other).missing =
        counters.matched + counters.missing) ∧
    counters.mismatch ≤ counters.missing ∧
    (config.canonicalByAnyArrival = false →
      (final.counters coin config.referenceProvider).missing = 0) := by
  have sameConfig : final.config = config := run_config executed
  have owing := run_preserves (Owing fun _ _ => 0)
    (fun _ _ _ held stepped => held.step stepped) Owing.new executed
  have covering := run_preserves Covering
    (fun _ _ _ held stepped => held.step stepped) Covering.new executed
  rw [← sameConfig] at active ⊢
  refine ⟨owing coin provider active, ?_, covering.mismatches_le coin provider, ?_⟩
  · intro other otherActive
    exact covering.covered_eq coin other provider otherActive active
  · intro byReference
    exact covering.reference_misses byReference coin

/-- Conservation in a run with a complete cohort and a late revision. -/
theorem observations_conserved_bookCalls :
    ∃ final, run Benchmark.step (Benchmark.new bookProcess 0 0) bookCalls = some final ∧
      (final.counters "BTC" .foundationWs).observed = 2 ∧
      (final.counters "BTC" .foundationWs).matched +
        (final.counters "BTC" .foundationWs).orphaned +
        (final.counters "BTC" .foundationWs).duplicate +
        (final.counters "BTC" .foundationWs).late +
        (final.counters "BTC" .foundationWs).signatureOverflow +
        final.storedArrivals "BTC" .foundationWs = 2 := by
  have observed : (run Benchmark.step (Benchmark.new bookProcess 0 0) bookCalls).map
      (fun final => (final.counters "BTC" .foundationWs).observed) = some 2 := by decide
  obtain ⟨final, executed, count⟩ := Option.map_eq_some_iff.mp observed
  have active : Provider.foundationWs ∈ bookProcess.providers := by decide
  exact ⟨final, executed, count,
    (observations_conserved executed "BTC" active).1.symm.trans count⟩

end Benchmark

end MarketBenchmark
