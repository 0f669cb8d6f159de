import MarketBenchmark.Benchmark.Transitions

/-!
# What each transition changes

One lemma per function and component.  Later modules reason from these and do
not unfold the transitions again.
-/

namespace MarketBenchmark

open Foundation.HashMaps
open Foundation.TimedRing

/-! ## Counter tables -/

namespace CounterTable

theorem bump_apply (counters : CounterTable) (coin : String) (provider : Provider)
    (increment : ProviderCounters) (otherCoin : String) (other : Provider) :
    counters.bump coin provider increment otherCoin other =
      counters otherCoin other +
        if otherCoin = coin ∧ other = provider then increment else 0 := by
  unfold bump
  split
  · rfl
  · rw [add_zero]

/-- Bumping every provider of a duplicate-free list bumps each of them once. -/
theorem foldl_bump_apply (increment : Provider → ProviderCounters) (coin : String)
    {providers : List Provider} (distinct : providers.Nodup) (counters : CounterTable)
    (otherCoin : String) (other : Provider) :
    providers.foldl (fun counters provider =>
        CounterTable.bump counters coin provider (increment provider)) counters
        otherCoin other =
      counters otherCoin other +
        if otherCoin = coin ∧ other ∈ providers then increment other else 0 := by
  induction providers generalizing counters with
  | nil => simp
  | cons provider rest ih =>
      obtain ⟨notRest, restDistinct⟩ := List.nodup_cons.mp distinct
      rw [List.foldl_cons, ih restDistinct, bump_apply, add_assoc]
      congr 1
      by_cases same : other = provider
      · subst same
        simp [notRest]
      · simp [same]

theorem countArrivals_apply (counters : CounterTable) (coin : String)
    {providers : List Provider} (distinct : providers.Nodup)
    (candidates : List PendingCandidate) (test : PendingCandidate → Provider → Bool)
    (increment : ProviderCounters) (otherCoin : String) (other : Provider) :
    counters.countArrivals coin providers candidates test increment otherCoin other =
      counters otherCoin other +
        if otherCoin = coin ∧ other ∈ providers then
          (candidates.map fun candidate => if test candidate other then increment else 0).sum
        else 0 := by
  unfold countArrivals
  induction candidates generalizing counters with
  | nil => simp
  | cons candidate rest ih =>
      have conditional : ∀ start : CounterTable,
          providers.foldl (fun counters provider =>
            if test candidate provider then counters.bump coin provider increment
            else counters) start =
          providers.foldl (fun counters provider =>
            CounterTable.bump counters coin provider
              (if test candidate provider then increment else 0)) start := by
        intro start
        congr 1
        funext counters provider
        by_cases passed : test candidate provider = true
        · rw [if_pos passed, if_pos passed]
        · rw [if_neg passed, if_neg passed]
          funext someCoin someProvider
          rw [bump_apply]
          simp
      rw [List.foldl_cons, ih, conditional,
        foldl_bump_apply (fun provider => if test candidate provider then increment else 0)
          coin distinct, add_assoc]
      congr 1
      split
      · rw [List.map_cons, List.sum_cons]
      · rw [add_zero]

end CounterTable

/-! ## Windows -/

namespace CoinWindow

@[simp]
theorem insertCoverage_coverage (window : CoinWindow) (cap : Nat) (now : Nat)
    (entry : CoverageCohort) :
    (window.insertCoverage cap now entry).coverage =
      insertCapped CoverageCohort.settledAt cap window.coverage entry := by
  unfold insertCoverage insertCapped
  dsimp only
  split <;> rfl

@[simp]
theorem insertCoverage_cohorts (window : CoinWindow) (cap : Nat) (now : Nat)
    (entry : CoverageCohort) :
    (window.insertCoverage cap now entry).cohorts = window.cohorts := by
  unfold insertCoverage
  dsimp only
  split <;> rfl

@[simp]
theorem insertCoverage_completeCohorts (window : CoinWindow) (cap : Nat) (now : Nat)
    (entry : CoverageCohort) :
    (window.insertCoverage cap now entry).completeCohorts = window.completeCohorts := by
  unfold insertCoverage
  dsimp only
  split <;> rfl

@[simp]
theorem insertCoverage_stateEvictions (window : CoinWindow) (cap : Nat) (now : Nat)
    (entry : CoverageCohort) :
    (window.insertCoverage cap now entry).stateEvictions = window.stateEvictions := by
  unfold insertCoverage
  dsimp only
  split <;> rfl

@[simp]
theorem insertCohort_cohorts (window : CoinWindow) (cap : Nat) (now : Nat)
    (entry : CommittedCohort) :
    (window.insertCohort cap now entry).cohorts =
      insertCapped CommittedCohort.committedAt cap window.cohorts entry := by
  unfold insertCohort insertCapped
  dsimp only
  split <;> rfl

@[simp]
theorem insertCohort_coverage (window : CoinWindow) (cap : Nat) (now : Nat)
    (entry : CommittedCohort) :
    (window.insertCohort cap now entry).coverage = window.coverage := by
  unfold insertCohort
  dsimp only
  split <;> rfl

@[simp]
theorem insertCohort_completeCohorts (window : CoinWindow) (cap : Nat) (now : Nat)
    (entry : CommittedCohort) :
    (window.insertCohort cap now entry).completeCohorts = window.completeCohorts + 1 := by
  unfold insertCohort
  dsimp only
  split <;> rfl

@[simp]
theorem insertCohort_stateEvictions (window : CoinWindow) (cap : Nat) (now : Nat)
    (entry : CommittedCohort) :
    (window.insertCohort cap now entry).stateEvictions = window.stateEvictions := by
  unfold insertCohort
  dsimp only
  split <;> rfl

end CoinWindow

namespace Benchmark

variable (order : IterationOrder) (benchmark : Benchmark)

/-- The publication cursor and everything else that only publications move. -/
def cursor (benchmark : Benchmark) :
    Nat × Nat × Nat × Bool × Option PreparedOutcomeInterval :=
  (benchmark.startedAt, benchmark.outcomeCursor, benchmark.outcomeCursorWallMs,
    benchmark.outcomeHasPublished, benchmark.preparedOutcomeInterval)

/-! ## Single-component updates -/

section Updates

variable (coin : String) (change : CoinWindow → CoinWindow) (provider : Provider)
  (increment : ProviderCounters) (now : Nat)

@[simp] theorem updateWindow_config :
    (benchmark.updateWindow coin change).config = benchmark.config := rfl
@[simp] theorem updateWindow_cursor :
    (benchmark.updateWindow coin change).cursor = benchmark.cursor := rfl
@[simp] theorem updateWindow_pending :
    (benchmark.updateWindow coin change).pending = benchmark.pending := rfl
@[simp] theorem updateWindow_settledBases :
    (benchmark.updateWindow coin change).settledBases = benchmark.settledBases := rfl
@[simp] theorem updateWindow_settled :
    (benchmark.updateWindow coin change).settled = benchmark.settled := rfl
@[simp] theorem updateWindow_counters :
    (benchmark.updateWindow coin change).counters = benchmark.counters := rfl

theorem updateWindow_windows (other : String) :
    (benchmark.updateWindow coin change).windows other =
      if other = coin then change (benchmark.windows other) else benchmark.windows other := rfl

@[simp] theorem bump_config : (benchmark.bump coin provider increment).config =
    benchmark.config := rfl
@[simp] theorem bump_cursor : (benchmark.bump coin provider increment).cursor =
    benchmark.cursor := rfl
@[simp] theorem bump_pending : (benchmark.bump coin provider increment).pending =
    benchmark.pending := rfl
@[simp] theorem bump_settledBases : (benchmark.bump coin provider increment).settledBases =
    benchmark.settledBases := rfl
@[simp] theorem bump_settled : (benchmark.bump coin provider increment).settled =
    benchmark.settled := rfl
@[simp] theorem bump_windows : (benchmark.bump coin provider increment).windows =
    benchmark.windows := rfl

theorem bump_counters (otherCoin : String) (other : Provider) :
    (benchmark.bump coin provider increment).counters otherCoin other =
      benchmark.counters otherCoin other +
        if otherCoin = coin ∧ other = provider then increment else 0 :=
  CounterTable.bump_apply benchmark.counters coin provider increment otherCoin other

@[simp] theorem markIntegrityLoss_config : (benchmark.markIntegrityLoss coin now).config =
    benchmark.config := rfl
@[simp] theorem markIntegrityLoss_cursor : (benchmark.markIntegrityLoss coin now).cursor =
    benchmark.cursor := rfl
@[simp] theorem markIntegrityLoss_pending : (benchmark.markIntegrityLoss coin now).pending =
    benchmark.pending := rfl
@[simp] theorem markIntegrityLoss_settledBases :
    (benchmark.markIntegrityLoss coin now).settledBases = benchmark.settledBases := rfl
@[simp] theorem markIntegrityLoss_settled : (benchmark.markIntegrityLoss coin now).settled =
    benchmark.settled := rfl
@[simp] theorem markIntegrityLoss_counters : (benchmark.markIntegrityLoss coin now).counters =
    benchmark.counters := rfl

end Updates

/-! ## Tombstones -/

/-- A tombstone goes in beside the others or in the place of one of them. -/
theorem insertSettledBase_cases (key : BaseKey) (settledAt : Nat) :
    benchmark.insertSettledBase order key settledAt =
        { benchmark with settledBases := benchmark.settledBases.insert key settledAt } ∨
      ∃ oldest, oldest ∈ benchmark.settledBases ∧
        benchmark.config.maxSettled ≤ benchmark.settledBases.entries.length ∧
        benchmark.insertSettledBase order key settledAt =
          { benchmark.updateWindow oldest.coin fun window => window.evictState settledAt with
            settledBases := (benchmark.settledBases.erase oldest).insert key settledAt } := by
  unfold insertSettledBase
  by_cases full : benchmark.config.maxSettled ≤ benchmark.settledBases.entries.length
  · rw [if_pos full]
    cases chosen : HashMap.oldest order (fun timestamp => timestamp)
        benchmark.settledBases with
    | none => exact Or.inl rfl
    | some oldest => exact Or.inr ⟨oldest, HashMap.oldest_mem chosen, full, rfl⟩
  · rw [if_neg full]
    exact Or.inl rfl

/-- A settled key goes in beside the others or in the place of one of them. -/
theorem insertSettled_cases (key : EventKey) (settled : SettledCohort) :
    benchmark.insertSettled order key settled =
        { benchmark with settled := benchmark.settled.insert key settled } ∨
      ∃ oldest, oldest ∈ benchmark.settled ∧
        benchmark.config.maxSettled ≤ benchmark.settled.entries.length ∧
        benchmark.insertSettled order key settled =
          { benchmark.updateWindow oldest.coin fun window =>
              window.evictState settled.settledAt with
            settled := (benchmark.settled.erase oldest).insert key settled } := by
  unfold insertSettled
  by_cases full : benchmark.config.maxSettled ≤ benchmark.settled.entries.length
  · rw [if_pos full]
    cases chosen : HashMap.oldest order SettledCohort.settledAt benchmark.settled with
    | none => exact Or.inl rfl
    | some oldest => exact Or.inr ⟨oldest, HashMap.oldest_mem chosen, full, rfl⟩
  · rw [if_neg full]
    exact Or.inl rfl

/-- Inserting a settled key brings in no other entry. -/
theorem lookup_insertSettled {order : IterationOrder} {benchmark : Benchmark}
    {key other : EventKey} {settled found : SettledCohort}
    (present : (benchmark.insertSettled order key settled).settled.lookup other = some found) :
    (other = key ∧ settled = found) ∨ benchmark.settled.lookup other = some found := by
  rcases insertSettled_cases order benchmark key settled with same | ⟨oldest, _, _, same⟩
  · rw [same] at present
    exact (HashMap.lookup_insert_eq_some.mp present).imp_right And.right
  · rw [same] at present
    refine (HashMap.lookup_insert_eq_some.mp present).imp_right fun ⟨_, kept⟩ => ?_
    exact (HashMap.lookup_erase_eq_some.mp kept).2

section Tombstones

variable (base : BaseKey) (now : Nat) (key : EventKey) (settled : SettledCohort)

@[simp]
theorem insertSettledBase_config :
    (benchmark.insertSettledBase order base now).config = benchmark.config := by
  rcases insertSettledBase_cases order benchmark base now with same | ⟨_, _, _, same⟩ <;>
    exact (congrArg Benchmark.config same :)

@[simp]
theorem insertSettledBase_cursor :
    (benchmark.insertSettledBase order base now).cursor = benchmark.cursor := by
  rcases insertSettledBase_cases order benchmark base now with same | ⟨_, _, _, same⟩ <;>
    exact (congrArg Benchmark.cursor same :)

@[simp]
theorem insertSettledBase_pending :
    (benchmark.insertSettledBase order base now).pending = benchmark.pending := by
  rcases insertSettledBase_cases order benchmark base now with same | ⟨_, _, _, same⟩ <;>
    exact (congrArg Benchmark.pending same :)

@[simp]
theorem insertSettledBase_settled :
    (benchmark.insertSettledBase order base now).settled = benchmark.settled := by
  rcases insertSettledBase_cases order benchmark base now with same | ⟨_, _, _, same⟩ <;>
    exact (congrArg Benchmark.settled same :)

@[simp]
theorem insertSettledBase_counters :
    (benchmark.insertSettledBase order base now).counters = benchmark.counters := by
  rcases insertSettledBase_cases order benchmark base now with same | ⟨_, _, _, same⟩ <;>
    exact (congrArg Benchmark.counters same :)

theorem insertSettledBase_mem (base : BaseKey) (now : Nat) :
    base ∈ (benchmark.insertSettledBase order base now).settledBases := by
  rcases insertSettledBase_cases order benchmark base now with same | ⟨oldest, _, _, same⟩
  · rw [same]
    exact (AList.mem_insert _).mpr (Or.inl rfl)
  · rw [same]
    exact (AList.mem_insert _).mpr (Or.inl rfl)

/-- No base other than the inserted one becomes sealed. -/
theorem mem_insertSettledBase {base other : BaseKey} {now : Nat}
    (member : other ∈ (benchmark.insertSettledBase order base now).settledBases) :
    other = base ∨ other ∈ benchmark.settledBases := by
  rcases insertSettledBase_cases order benchmark base now with same | ⟨oldest, _, _, same⟩
  · rw [same] at member
    exact AList.mem_insert _ |>.mp member
  · rw [same] at member
    rcases (AList.mem_insert _).mp member with inserted | kept
    · exact Or.inl inserted
    · exact Or.inr (AList.mem_erase.mp kept).2

/-- What a state eviction leaves alone, inserting a sealed base leaves alone. -/
theorem insertSettledBase_windows {Part : Type} (part : CoinWindow → Part)
    (untouched : ∀ window at_, part (CoinWindow.evictState window at_) = part window)
    (coin : String) :
    part ((benchmark.insertSettledBase order base now).windows coin) =
      part (benchmark.windows coin) := by
  rcases insertSettledBase_cases order benchmark base now with same | ⟨oldest, _, _, same⟩
  · rw [same]
  · rw [same]
    by_cases evicted : coin = oldest.coin
    · exact (congrArg part (if_pos evicted)).trans (untouched _ _)
    · exact congrArg part (if_neg evicted)

@[simp]
theorem insertSettled_config :
    (benchmark.insertSettled order key settled).config = benchmark.config := by
  rcases insertSettled_cases order benchmark key settled with same | ⟨_, _, _, same⟩ <;>
    exact (congrArg Benchmark.config same :)

@[simp]
theorem insertSettled_cursor :
    (benchmark.insertSettled order key settled).cursor = benchmark.cursor := by
  rcases insertSettled_cases order benchmark key settled with same | ⟨_, _, _, same⟩ <;>
    exact (congrArg Benchmark.cursor same :)

@[simp]
theorem insertSettled_pending :
    (benchmark.insertSettled order key settled).pending = benchmark.pending := by
  rcases insertSettled_cases order benchmark key settled with same | ⟨_, _, _, same⟩ <;>
    exact (congrArg Benchmark.pending same :)

@[simp]
theorem insertSettled_settledBases :
    (benchmark.insertSettled order key settled).settledBases = benchmark.settledBases := by
  rcases insertSettled_cases order benchmark key settled with same | ⟨_, _, _, same⟩ <;>
    exact (congrArg Benchmark.settledBases same :)

@[simp]
theorem insertSettled_counters :
    (benchmark.insertSettled order key settled).counters = benchmark.counters := by
  rcases insertSettled_cases order benchmark key settled with same | ⟨_, _, _, same⟩ <;>
    exact (congrArg Benchmark.counters same :)

/-- What a state eviction leaves alone, inserting a settled key leaves alone. -/
theorem insertSettled_windows {Part : Type} (part : CoinWindow → Part)
    (untouched : ∀ window at_, part (CoinWindow.evictState window at_) = part window)
    (coin : String) :
    part ((benchmark.insertSettled order key settled).windows coin) =
      part (benchmark.windows coin) := by
  rcases insertSettled_cases order benchmark key settled with same | ⟨oldest, _, _, same⟩
  · rw [same]
  · rw [same]
    by_cases evicted : coin = oldest.coin
    · exact (congrArg part (if_pos evicted)).trans (untouched _ _)
    · exact congrArg part (if_neg evicted)

end Tombstones

/-! ## Finalizing a candidate -/

/-- The instant under which a finalized candidate enters the rings. -/
def sampleStamp (config : BenchmarkConfig) (candidate : PendingCandidate) (now : Nat) :
    Nat :=
  if candidate.complete config.providers then candidate.latestArrival config.providers else now

/-- The coverage entry of a finalized candidate. -/
def coverageEntry (config : BenchmarkConfig) (key : EventKey) (candidate : PendingCandidate)
    (now : Nat) (noncanonicalSeen : Provider → Bool) : CoverageCohort where
  settledAt := sampleStamp config candidate now
  outcomes := fun provider =>
    if provider ∈ config.providers then outcomeOf candidate noncanonicalSeen provider
    else .missing
  origin := key

/-- The cohort of a finalized complete candidate. -/
def cohortEntry (config : BenchmarkConfig) (key : EventKey) (candidate : PendingCandidate)
    (serial : Nat) : CommittedCohort where
  committedAt := candidate.latestArrival config.providers
  eventMs := key.eventMs
  latencyMs := latencyRow config candidate key.eventMs
  commitDelayMs := asMillis (candidate.latestArrival config.providers - candidate.firstObserved)
  outcomeReported := false
  origin := key
  serial := serial

section Finalize

variable (key : EventKey) (candidate : PendingCandidate) (now : Nat)
  (seen : Provider → Bool)

@[simp]
theorem finalizeCandidate_config :
    (benchmark.finalizeCandidate order key candidate now seen).config = benchmark.config :=
  insertSettled_config order _ key _

@[simp]
theorem finalizeCandidate_cursor :
    (benchmark.finalizeCandidate order key candidate now seen).cursor = benchmark.cursor :=
  insertSettled_cursor order _ key _

@[simp]
theorem finalizeCandidate_pending :
    (benchmark.finalizeCandidate order key candidate now seen).pending = benchmark.pending :=
  insertSettled_pending order _ key _

@[simp]
theorem finalizeCandidate_settledBases :
    (benchmark.finalizeCandidate order key candidate now seen).settledBases =
      benchmark.settledBases :=
  insertSettled_settledBases order _ key _

theorem finalizeCandidate_counters (otherCoin : String) (other : Provider) :
    (benchmark.finalizeCandidate order key candidate now seen).counters otherCoin other =
      benchmark.counters otherCoin other +
        if otherCoin = key.coin ∧ other ∈ benchmark.config.providers then
          (outcomeOf candidate seen other).increment
        else 0 := by
  unfold finalizeCandidate
  dsimp only
  rw [insertSettled_counters]
  exact CounterTable.foldl_bump_apply
    (fun provider => (outcomeOf candidate seen provider).increment)
    key.coin benchmark.config.providers_nodup benchmark.counters otherCoin other

/-- What a finalized candidate does to the window of its coin, before the tombstone. -/
def sampleWindow (config : BenchmarkConfig) (key : EventKey) (candidate : PendingCandidate)
    (now : Nat) (seen : Provider → Bool) (window : CoinWindow) : CoinWindow :=
  let window := window.insertCoverage config.maxRollingCohorts now
    (coverageEntry config key candidate now seen)
  if candidate.complete config.providers then
    window.insertCohort config.maxRollingCohorts now
      (cohortEntry config key candidate (window.completeCohorts + 1))
  else window

/-- Finalizing inserts the sample into its window and then the settled key. -/
theorem finalizeCandidate_eq :
    benchmark.finalizeCandidate order key candidate now seen =
      Benchmark.insertSettled order
        ({ benchmark with
            counters := benchmark.config.providers.foldl (fun counters provider =>
              CounterTable.bump counters key.coin provider
                (outcomeOf candidate seen provider).increment) benchmark.counters }.updateWindow
          key.coin (sampleWindow benchmark.config key candidate now seen))
        key
        { settledAt := sampleStamp benchmark.config candidate now
          matchedMask := fun provider =>
            decide (provider ∈ benchmark.config.providers) && candidate.hasArrival provider } := by
  unfold finalizeCandidate
  dsimp only
  congr 2
  funext window
  unfold sampleWindow coverageEntry cohortEntry sampleStamp
  by_cases complete : candidate.complete benchmark.config.providers = true
  · simp only [complete, if_true]
  · simp only [complete, if_false, Bool.false_eq_true]

/-- Apart from the integrity marks of evicted keys, a finalized candidate only
changes the window of its own coin. -/
theorem finalizeCandidate_windows {Part : Type} (part : CoinWindow → Part)
    (untouched : ∀ window at_, part (CoinWindow.evictState window at_) = part window)
    (coin : String) :
    part ((benchmark.finalizeCandidate order key candidate now seen).windows coin) =
      if coin = key.coin then
        part (sampleWindow benchmark.config key candidate now seen (benchmark.windows coin))
      else part (benchmark.windows coin) := by
  rw [finalizeCandidate_eq, insertSettled_windows order _ key _ part untouched,
    updateWindow_windows]
  split <;> rfl

end Finalize

end Benchmark

end MarketBenchmark
