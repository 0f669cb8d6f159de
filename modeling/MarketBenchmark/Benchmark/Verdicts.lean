import MarketBenchmark.Benchmark.Conservation
import MarketBenchmark.Benchmark.Gathering
import MarketBenchmark.Benchmark.Rings
import MarketBenchmark.Benchmark.SingleSource

/-!
# The verdict on one base

A base that is alone in a fresh benchmark first gathers its events and then is
sealed: by the first event that comes after the deadline, or by the tick.  What
it gathered decides the samples and the counters; every event after the seal is
late.
-/

namespace MarketBenchmark

open Foundation.HashMaps Foundation.TimedRing Foundation.Runs

/-- The counters in which the verdict on a base shows. -/
def ProviderCounters.judged : ProviderCounters →+ ProviderCounters where
  toFun counters :=
    { matched := counters.matched
      missing := counters.missing
      mismatch := counters.mismatch
      late := counters.late
      orphaned := counters.orphaned }
  map_zero' := rfl
  map_add' _ _ := rfl

open ProviderCounters

/-- What the benchmark admitted of a coin: its samples, and the judged counters. -/
@[ext]
structure Admission where
  cohorts : Multiset (Nat × (Provider → Nat))
  coverage : Multiset (Provider → CoverageOutcome)
  counted : Provider → ProviderCounters

namespace Benchmark

/-- What a cohort shows of its base. -/
def committedSample (cohort : CommittedCohort) : Nat × (Provider → Nat) :=
  (cohort.committedAt, cohort.latencyMs)

def admission (benchmark : Benchmark) (coin : String) : Admission where
  cohorts := ((benchmark.windows coin).cohorts.map committedSample : List _)
  coverage := ((benchmark.windows coin).coverage.map CoverageCohort.outcomes : List _)
  counted provider := judged (benchmark.counters coin provider)

/-! ## The samples and counters of a gathered base -/

section Sealed

variable (config : BenchmarkConfig) (base : BaseKey) (pending : PendingBase)

/-- Who delivered content that is not canonical. -/
def seenElsewhere : Provider → Bool :=
  noncanonicalSeen config (admitted .stored config pending)

def sealedCohorts : List (Nat × (Provider → Nat)) :=
  ((canonical .stored config pending).filter fun entry =>
    entry.2.complete config.providers).map fun entry =>
      (entry.2.latestArrival config.providers, latencyRow config entry.2 base.eventMs)

def sealedCoverage (sealedAt : Nat) : List CoverageCohort :=
  (canonical .stored config pending).map fun entry =>
    coverageEntry config (eventKey base entry.1) entry.2 sealedAt (seenElsewhere config pending)

def sealedCounts (provider : Provider) : ProviderCounters :=
  if provider ∈ config.providers then
    (pending.candidates.entries.map fun entry =>
      judged (settledIncrement config pending.firstObserved (seenElsewhere config pending)
        entry.2 provider)).sum
  else 0

/-- The events of a provider, each of them late. -/
def lateCounts (events : List MarketEvent) (provider : Provider) : ProviderCounters :=
  { late := events.countP fun event => decide (event.provider = provider) }

/-- What is left at the tick of a base sealed before it, with the events that came too late. -/
def verdict (sealedAt tickAt : Nat) (rest : List MarketEvent) : Admission where
  cohorts := ((sealedCohorts config base pending).filter fun sample =>
    decide (tickAt - sample.1 ≤ config.rollingWindow) : List _)
  coverage := (((sealedCoverage config base pending sealedAt).filter fun entry =>
    decide (tickAt - entry.settledAt ≤ config.rollingWindow)).map CoverageCohort.outcomes : List _)
  counted provider := sealedCounts config pending provider + lateCounts rest provider

end Sealed

/-! ## The order of the entries does not matter -/

section Permuted

variable {config : BenchmarkConfig} {pending other : PendingBase}

theorem admitted_perm (sameFirst : pending.firstObserved = other.firstObserved)
    (sameEntries : pending.candidates.entries.Perm other.candidates.entries)
    (order otherOrder : IterationOrder) :
    (admitted order config pending).Perm (admitted otherOrder config other) := by
  unfold admitted
  rw [sameFirst]
  refine List.Perm.map _ ((order.perm _).trans (sameEntries.trans ?_))
  exact (otherOrder.perm _).symm

theorem canonical_perm (sameFirst : pending.firstObserved = other.firstObserved)
    (sameEntries : pending.candidates.entries.Perm other.candidates.entries)
    (order otherOrder : IterationOrder) :
    (canonical order config pending).Perm (canonical otherOrder config other) :=
  (admitted_perm sameFirst sameEntries order otherOrder).filter _

theorem noncanonicalSeen_perm {candidates others : List (ContentKey × PendingCandidate)}
    (same : candidates.Perm others) :
    noncanonicalSeen config candidates = noncanonicalSeen config others := by
  funext provider
  unfold noncanonicalSeen
  rw [same.any_eq]

theorem length_canonical_le (order : IterationOrder) (config : BenchmarkConfig)
    (pending : PendingBase) :
    (canonical order config pending).length ≤ pending.candidates.entries.length := by
  refine (List.length_filter_le _ _).trans (Nat.le_of_eq ?_)
  unfold admitted
  rw [List.length_map, (order.perm _).length_eq]

variable (config) in
/-- Bases with the same entries get the same verdict. -/
theorem verdict_congr (sameFirst : pending.firstObserved = other.firstObserved)
    (sameEntries : pending.candidates.entries.Perm other.candidates.entries) (base : BaseKey)
    (sealedAt tickAt : Nat) {rest others : List MarketEvent} (sameRest : rest.Perm others) :
    verdict config base pending sealedAt tickAt rest =
      verdict config base other sealedAt tickAt others := by
  have sameCanonical : (canonical .stored config pending).Perm (canonical .stored config other) :=
    canonical_perm sameFirst sameEntries .stored .stored
  have sameSeen : seenElsewhere config pending = seenElsewhere config other :=
    noncanonicalSeen_perm (admitted_perm sameFirst sameEntries .stored .stored)
  refine Admission.ext ?_ ?_ ?_
  · exact Multiset.coe_eq_coe.mpr (((sameCanonical.filter _).map _).filter _)
  · unfold verdict sealedCoverage
    rw [sameSeen]
    exact Multiset.coe_eq_coe.mpr (((sameCanonical.map _).filter _).map _)
  · funext provider
    unfold verdict sealedCounts lateCounts
    dsimp only
    rw [sameSeen, sameFirst, (sameEntries.map _).sum_eq, sameRest.countP_eq]

end Permuted

/-! ## What a settlement puts into the rings of a fresh coin -/

section Settled

variable {order : IterationOrder} {benchmark : Benchmark} {base : BaseKey}
  {pending : PendingBase} {now : Nat}

theorem absorbs_coverage (config : BenchmarkConfig) :
    Absorbs config CoinWindow.coverage fun ring sample =>
      insertCapped CoverageCohort.settledAt config.maxRollingCohorts ring
        (coverageEntry config sample.key sample.candidate sample.now sample.seen) where
  evicted _ _ := rfl
  marked _ _ := rfl
  sampled window _ := sampleWindow_coverage config _ _ _ _ window

theorem map_committedSample (cap : Nat) (cohorts : List CommittedCohort)
    (cohort : CommittedCohort) :
    (insertCapped CommittedCohort.committedAt cap cohorts cohort).map committedSample =
      insertCapped Prod.fst cap (cohorts.map committedSample) (committedSample cohort) := by
  have keeps : ∀ cohort, (committedSample cohort).1 = cohort.committedAt := fun _ => rfl
  exact map_insertCapped committedSample keeps cap cohorts cohort

theorem absorbs_committed (config : BenchmarkConfig) :
    Absorbs config (fun window => window.cohorts.map committedSample) fun ring sample =>
      if sample.candidate.complete config.providers then
        insertCapped Prod.fst config.maxRollingCohorts ring
          (sample.candidate.latestArrival config.providers,
            latencyRow config sample.candidate sample.key.eventMs)
      else ring where
  evicted _ _ := rfl
  marked _ _ := rfl
  sampled window sample := by
    rw [sampleWindow_cohorts, apply_ite (List.map committedSample), map_committedSample]
    rfl

/-- The samples of one settlement are all of the coin of its base. -/
theorem samplesOf_settleSamples (found : benchmark.pending.lookup base = some pending) :
    samplesOf base.coin (benchmark.settleSamples order base now) =
      (canonical order benchmark.config pending).map fun entry =>
        { key := eventKey base entry.1
          candidate := entry.2
          now := now
          seen := noncanonicalSeen benchmark.config
            (admitted order benchmark.config pending) } := by
  unfold settleSamples samplesOf
  rw [found]
  refine List.filter_eq_self.mpr fun _ member => ?_
  obtain ⟨entry, _, rfl⟩ := List.mem_map.mp member
  exact decide_eq_true rfl

theorem coverage_settle (found : benchmark.pending.lookup base = some pending)
    (fresh : (benchmark.windows base.coin).coverage = [])
    (room : pending.candidates.entries.length ≤ benchmark.config.maxRollingCohorts) :
    ((benchmark.settle order base now false).windows base.coin).coverage.Perm
      (sealedCoverage benchmark.config base pending now) := by
  have absorbed :=
    (absorbed_settle order (absorbs_coverage benchmark.config) base now false).windows
    base.coin
  have few := (length_canonical_le order benchmark.config pending).trans room
  rw [absorbed, fresh, samplesOf_settleSamples found, List.foldl_map]
  refine (foldl_insertCapped_perm _ _ _ few).trans ?_
  rw [List.append_nil, noncanonicalSeen_perm
    (admitted_perm rfl (List.Perm.refl pending.candidates.entries) order .stored)]
  exact (canonical_perm rfl (List.Perm.refl pending.candidates.entries) order .stored).map _

theorem cohorts_settle (found : benchmark.pending.lookup base = some pending)
    (fresh : (benchmark.windows base.coin).cohorts = [])
    (room : pending.candidates.entries.length ≤ benchmark.config.maxRollingCohorts) :
    (((benchmark.settle order base now false).windows base.coin).cohorts.map
      committedSample).Perm (sealedCohorts benchmark.config base pending) := by
  have absorbed := (absorbed_settle order (absorbs_committed benchmark.config) base now
    false).windows base.coin
  have few : ((canonical order benchmark.config pending).filter fun entry =>
      entry.2.complete benchmark.config.providers).length ≤ benchmark.config.maxRollingCohorts :=
    (List.length_filter_le _ _).trans ((length_canonical_le order benchmark.config pending).trans
      room)
  rw [absorbed, fresh, samplesOf_settleSamples found, List.foldl_map, List.map_nil,
    ← List.foldl_filter]
  refine (foldl_insertCapped_perm _ _ _ few).trans ?_
  rw [List.append_nil]
  exact ((canonical_perm rfl (List.Perm.refl pending.candidates.entries) order
    .stored).filter _).map _

/-- The judged counters of a settlement are those of the gathered base. -/
theorem judged_settle (found : benchmark.pending.lookup base = some pending)
    (provider : Provider) :
    judged ((benchmark.settle order base now false).counters base.coin provider) =
      judged (benchmark.counters base.coin provider) +
        sealedCounts benchmark.config pending provider := by
  rw [measure_settle order benchmark judged now false found, noncanonicalSeen_perm
    (admitted_perm rfl (List.Perm.refl pending.candidates.entries) order .stored)]
  unfold sealedCounts seenElsewhere
  congr 1
  exact if_congr (and_iff_right rfl) rfl rfl

/-- A key is marked only for arrivals of its own content. -/
theorem marked_settle (found : benchmark.pending.lookup base = some pending)
    (fresh : benchmark.settled = ∅) {key : EventKey} {settled : SettledCohort}
    {provider : Provider}
    (present : (benchmark.settle order base now false).settled.lookup key = some settled)
    (marked : settled.matchedMask provider = true) :
    ∃ content candidate, pending.candidates.lookup content = some candidate ∧
      key = eventKey base content ∧ candidate.hasArrival provider = true := by
  refine settle_induction order benchmark (fun state => ∀ key settled,
    state.settled.lookup key = some settled → settled.matchedMask provider = true →
      ∃ content candidate, pending.candidates.lookup content = some candidate ∧
        key = eventKey base content ∧ candidate.hasArrival provider = true)
    found ?_ ?_ key settled present marked
  · intro key settled present
    rw [sealBase_settled, fresh] at present
    cases present
  · intro state content candidate sameConfig member held key settled present marked
    rw [finalizeCandidate_eq] at present
    rcases lookup_insertSettled present with ⟨rfl, rfl⟩ | before
    · rw [Bool.and_eq_true, decide_eq_true_eq, sameConfig] at marked
      obtain ⟨active, arrived⟩ := marked
      obtain ⟨arrival, arrived⟩ := Option.isSome_iff_exists.mp arrived
      obtain ⟨stored, isStored, rfl⟩ := mem_admitted order (List.mem_of_mem_filter member)
      have kept := (arrivals_withoutLate active arrived).1
      exact ⟨content, stored, isStored, rfl, Option.isSome_of_eq_some kept⟩
    · exact held key settled before marked

end Settled

end Benchmark

end MarketBenchmark
