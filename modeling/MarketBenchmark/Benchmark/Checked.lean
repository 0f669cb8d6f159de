import MarketBenchmark.Benchmark.Admission
import MarketBenchmark.Benchmark.Registration
import MarketBenchmark.Foundation.Results

/-!
# The calls with their panics

The functions of the benchmark once more, with every place where the code may
panic: a map that has no entry for the coin, an arrival or a least element that
is expected to be there, an assertion, and a subtraction that would go below
zero.  In the states that a run reaches none of them does, and the functions are
those without panics.
-/

namespace MarketBenchmark

open Foundation.HashMaps
open Foundation.Results
open Foundation.Runs

namespace Benchmark

variable (order : IterationOrder) (benchmark : Benchmark)

/-! ## Lookups -/

/-- `windows.get_mut(coin).expect("registered coin")`. -/
def windowMut? (coin : String) (change : CoinWindow → CoinWindow) : Option Benchmark :=
  if coin ∈ benchmark.config.coins then some (benchmark.updateWindow coin change) else none

/-- `counters_mut(provider, coin)`. -/
def countersMut? (coin : String) (provider : Provider) (increment : ProviderCounters) :
    Option Benchmark :=
  if coin ∈ benchmark.config.coins then some (benchmark.bump coin provider increment) else none

def insertSettled? (key : EventKey) (settled : SettledCohort) : Option Benchmark := do
  let benchmark ←
    (if benchmark.config.maxSettled ≤ benchmark.settled.entries.length then
      match HashMap.oldest order SettledCohort.settledAt benchmark.settled with
      | none => some benchmark
      | some oldest =>
          windowMut? { benchmark with settled := benchmark.settled.erase oldest }
            oldest.coin fun window => window.evictState settled.settledAt
    else some benchmark)
  return { benchmark with settled := benchmark.settled.insert key settled }

def insertSettledBase? (key : BaseKey) (settledAt : Nat) : Option Benchmark := do
  let benchmark ←
    (if benchmark.config.maxSettled ≤ benchmark.settledBases.entries.length then
      match HashMap.oldest order (fun timestamp => timestamp) benchmark.settledBases with
      | none => some benchmark
      | some oldest =>
          windowMut? { benchmark with settledBases := benchmark.settledBases.erase oldest }
            oldest.coin fun window => window.evictState settledAt
    else some benchmark)
  return { benchmark with settledBases := benchmark.settledBases.insert key settledAt }

/-! ## Settling -/

/-- The settling instant; a complete candidate is expected to have arrivals. -/
def settledAt? (config : BenchmarkConfig) (candidate : PendingCandidate) (now : Nat) :
    Option Nat :=
  if candidate.complete config.providers then
    ((config.providers.filterMap candidate.arrivals).map Observation.received).max?
  else some now

/-- The latency of a provider that is expected to have arrived. -/
def latency? (candidate : PendingCandidate) (eventMs : Nat) (provider : Provider) : Option Nat := do
  let arrival ← candidate.arrivals provider
  if eventMs ≤ arrival.receivedWallMs then return arrival.receivedWallMs - eventMs else none

def latencyRow? (config : BenchmarkConfig) (candidate : PendingCandidate) (eventMs : Nat) :
    Option (Provider → Nat) :=
  config.providers.foldlM (fun row provider => do
    return Function.update row provider (← latency? candidate eventMs provider)) fun _ => 0

def finalizeCandidate? (key : EventKey) (candidate : PendingCandidate) (now : Nat)
    (noncanonicalSeen : Provider → Bool) : Option Benchmark := do
  let config := benchmark.config
  let providers := config.providers
  let outcome := outcomeOf candidate noncanonicalSeen
  -- the assertion of a debug build
  guard (providers.any candidate.hasArrival)
  let complete := candidate.complete providers
  let settledAt ← settledAt? config candidate now
  let benchmark ← providers.foldlM (fun benchmark provider =>
    benchmark.countersMut? key.coin provider (outcome provider).increment) benchmark
  let coverage : CoverageCohort :=
    { settledAt := settledAt
      outcomes := fun provider => if provider ∈ providers then outcome provider else .missing
      origin := key }
  let benchmark ← benchmark.windowMut? key.coin fun window =>
    window.insertCoverage config.maxRollingCohorts now coverage
  let benchmark ←
    (if complete then do
      let latencyMs ← latencyRow? config candidate key.eventMs
      benchmark.windowMut? key.coin fun window =>
        window.insertCohort config.maxRollingCohorts now
          { committedAt := settledAt
            eventMs := key.eventMs
            latencyMs := latencyMs
            commitDelayMs := asMillis (settledAt - candidate.firstObserved)
            outcomeReported := false
            origin := key
            serial := window.completeCohorts + 1 }
    else some benchmark)
  benchmark.insertSettled? order key
    { settledAt := settledAt
      matchedMask := fun provider =>
        decide (provider ∈ providers) && candidate.hasArrival provider }

/-- One pass over the candidates and active providers of a base. -/
def countArrivals? (coin : String) (candidates : List PendingCandidate)
    (test : PendingCandidate → Provider → Bool) (increment : ProviderCounters) :
    Option Benchmark :=
  candidates.foldlM (fun benchmark candidate =>
    benchmark.config.providers.foldlM (fun benchmark provider =>
      if test candidate provider then benchmark.countersMut? coin provider increment
      else some benchmark) benchmark) benchmark

/-- `settle` up to the canonical candidates. -/
def sealBase? (key : BaseKey) (pending : PendingBase) (now : Nat) (evicted : Bool) :
    Option Benchmark := do
  let config := benchmark.config
  let benchmark := { benchmark with pending := benchmark.pending.erase key }
  let benchmark ← benchmark.insertSettledBase? order key now
  let benchmark ←
    (if evicted then benchmark.windowMut? key.coin fun window => window.evictState now
    else some benchmark)
  let benchmark ← benchmark.countArrivals? key.coin (pending.candidates.entries.map Sigma.snd)
    (fun candidate => candidate.arrivedAfterDeadline pending.firstObserved config.cohortTimeout)
    { late := 1 }
  let orphans := ((admitted order config pending).filter fun entry =>
    !entry.2.isReference config).map Prod.snd
  benchmark.countArrivals? key.coin orphans (fun candidate => candidate.hasArrival)
    { orphaned := 1 }

def settle? (key : BaseKey) (now : Nat) (evicted : Bool) : Option Benchmark :=
  match benchmark.pending.lookup key with
  | none => some benchmark
  | some pending => do
      let config := benchmark.config
      let candidates := admitted order config pending
      let seen := noncanonicalSeen config candidates
      let benchmark ← benchmark.sealBase? order key pending now evicted
      (candidates.filter fun entry => entry.2.isReference config).foldlM
        (fun benchmark entry =>
          benchmark.finalizeCandidate? order
            { coin := key.coin, eventMs := key.eventMs, content := entry.1 }
            entry.2 now seen) benchmark

def tick? (now : Nat) : Option Benchmark := do
  let benchmark ← (benchmark.expired order now).foldlM
    (fun benchmark key => benchmark.settle? order key now false) benchmark
  return benchmark.prune now

/-! ## Market events -/

def sealOverdue? (base : BaseKey) (received : Nat) : Option Benchmark :=
  match benchmark.pending.lookup base with
  | none => some benchmark
  | some pending =>
      if benchmark.config.cohortTimeout ≤ received - pending.firstObserved then
        benchmark.settle? order base received false
      else some benchmark

def recordSealed? (event : MarketEvent) : Option Benchmark :=
  let matchedBefore :=
    match benchmark.settled.lookup event.key with
    | none => false
    | some settled => settled.matchedMask event.provider
  benchmark.countersMut? event.key.coin event.provider
    (if matchedBefore then { duplicate := 1 } else { late := 1 })

def makeRoom? (base : BaseKey) (received : Nat) : Option Benchmark :=
  if base ∉ benchmark.pending ∧
      benchmark.config.maxPending ≤ benchmark.pending.entries.length then
    match HashMap.oldest order PendingBase.firstObserved benchmark.pending with
    | none => some benchmark
    | some oldest => benchmark.settle? order oldest received true
  else some benchmark

def store? (event : MarketEvent) : Option Benchmark := do
  let base := event.key.base
  let opened := (benchmark.pending.lookup base).getD (PendingBase.new event.received)
  let cohort := { opened with firstObserved := min opened.firstObserved event.received }
  if event.key.content ∉ cohort.candidates ∧
      maxSignaturesPerBase ≤ cohort.candidates.entries.length then
    let benchmark := { benchmark with pending := benchmark.pending.insert base cohort }
    let benchmark ← benchmark.countersMut? event.key.coin event.provider { signatureOverflow := 1 }
    benchmark.windowMut? event.key.coin fun window => window.markIntegrityLoss event.received
  else
    let found := (cohort.candidates.lookup event.key.content).getD
      (PendingCandidate.new event.received)
    let candidate := { found with firstObserved := min found.firstObserved event.received }
    if candidate.hasArrival event.provider then
      let cohort :=
        { cohort with candidates := cohort.candidates.insert event.key.content candidate }
      let benchmark := { benchmark with pending := benchmark.pending.insert base cohort }
      benchmark.countersMut? event.key.coin event.provider { duplicate := 1 }
    else
      let candidate : PendingCandidate :=
        { candidate with
          arrivals := Function.update candidate.arrivals event.provider
            (some { received := event.received, receivedWallMs := event.receivedWallMs }) }
      let cohort :=
        { cohort with candidates := cohort.candidates.insert event.key.content candidate }
      let benchmark := { benchmark with pending := benchmark.pending.insert base cohort }
      if benchmark.config.providers.length = 1 then
        benchmark.settle? order base event.received false
      else some benchmark

def recordAccepted? (event : MarketEvent) : Option Benchmark := do
  let base := event.key.base
  let benchmark ← benchmark.countersMut? event.key.coin event.provider { observed := 1 }
  let benchmark ← benchmark.sealOverdue? order base event.received
  if base ∈ benchmark.settledBases then benchmark.recordSealed? event
  else
    let benchmark ← benchmark.makeRoom? order base event.received
    benchmark.store? order event

def recordMarket? (event : MarketEvent) : Option Benchmark :=
  if event.provider ∉ benchmark.config.providers then some benchmark
  else if event.key.eventMs = 0 then do
    let benchmark ← benchmark.countersMut? event.key.coin event.provider { futureTimestamp := 1 }
    benchmark.windowMut? event.key.coin fun window => window.markIntegrityLoss event.received
  else if event.receivedWallMs < event.key.eventMs then do
    let ahead := event.key.eventMs - event.receivedWallMs
    let benchmark ← benchmark.countersMut? event.key.coin event.provider
      (if maxFutureSkewMs < ahead then { futureTimestamp := 1 } else { negativeLatency := 1 })
    benchmark.windowMut? event.key.coin fun window => window.markIntegrityLoss event.received
  else benchmark.recordAccepted? order event

def record? (event : ProbeEvent) : Option Benchmark :=
  match event with
  | .market event => benchmark.recordMarket? order event
  | .reconnect provider coin => benchmark.countersMut? coin provider { reconnects := 1 }
  | .sequenceGap provider coin missing =>
      benchmark.countersMut? coin provider { sequenceGaps := missing }
  | .replay provider coin messages hasGap =>
      benchmark.countersMut? coin provider { replayCount := messages, replayGaps := hasGap.toNat }

/-! ## Calls -/

/-- The least latency of a cohort is expected to be there. -/
def unreportedOutcomes? (window : CoinWindow) (now : Nat) (providers : List Provider) :
    Option OutcomeCounts :=
  (window.cohorts.filter (CommittedCohort.unreported now)).foldlM (fun counts cohort => do
    let _ ← (providers.map cohort.latencyMs).min?
    return counts.count providers cohort) {}

/-- The coins looked up are the configured ones. -/
def windowEvents? (now wallNowMs : Nat) (signals : RuntimeSignals) (clock : ClockHealthSnapshot) :
    Option (Benchmark × List LatencyWindowEvent) := do
  let benchmark ← tick? order { benchmark with preparedOutcomeInterval := none } now
  let intervalMs := asMillis benchmark.config.publishInterval
  let providers := benchmark.config.providers
  -- the code divides by the interval
  guard (intervalMs ≠ 0)
  let wallMs := alignedWindowEndMs wallNowMs intervalMs
  if wallMs ≤ benchmark.outcomeCursorWallMs ∨ now ≤ benchmark.outcomeCursor then
    return (benchmark, [])
  else
    -- the rows read these counts
    let _ ← benchmark.config.coins.mapM fun coin =>
      if benchmark.config.hasProviderComparison then
        unreportedOutcomes? (benchmark.windows coin) now providers
      else some {}
    let events := benchmark.config.coins.flatMap fun coin =>
      providers.map fun provider =>
        benchmark.windowEvent now wallNowMs wallMs signals (clock.assess wallNowMs) coin provider
    return ({ benchmark with
      preparedOutcomeInterval := some { stop := now, stopWallMs := wallMs } }, events)

def step? : Call → Option Benchmark
  | .record order event => benchmark.record? order event
  | .tick order now => benchmark.tick? order now
  | .windowEvents order now wallNowMs signals clock =>
      (benchmark.windowEvents? order now wallNowMs signals clock).map Prod.fst
  | .commitPreparedPublication => some benchmark.commitPreparedPublication.1
  | .rejectPreparedPublication => some benchmark.rejectPreparedPublication

/-! ## Lookups of configured coins -/

variable {order : IterationOrder} {benchmark : Benchmark}

theorem windowMut?_eq {coin : String} (own : coin ∈ benchmark.config.coins)
    (change : CoinWindow → CoinWindow) :
    benchmark.windowMut? coin change = some (benchmark.updateWindow coin change) := if_pos own

theorem countersMut?_eq {coin : String} (own : coin ∈ benchmark.config.coins)
    (provider : Provider) (increment : ProviderCounters) :
    benchmark.countersMut? coin provider increment =
      some (benchmark.bump coin provider increment) := if_pos own

/-- A count with an integrity loss of the coin. -/
theorem countersMut?_windowMut?_eq {coin : String} (own : coin ∈ benchmark.config.coins)
    (provider : Provider) (increment : ProviderCounters) (now : Nat) :
    ((benchmark.countersMut? coin provider increment).bind fun benchmark =>
      benchmark.windowMut? coin fun window => window.markIntegrityLoss now) =
      some ((benchmark.bump coin provider increment).markIntegrityLoss coin now) := by
  rw [countersMut?_eq own]
  exact if_pos own

theorem Registered.insertSettled?_eq (registered : benchmark.Registered) (key : EventKey)
    (settled : SettledCohort) :
    benchmark.insertSettled? order key settled =
      some (benchmark.insertSettled order key settled) := by
  unfold insertSettled? Benchmark.insertSettled
  dsimp only
  by_cases full : benchmark.config.maxSettled ≤ benchmark.settled.entries.length
  · rw [if_pos full, if_pos full]
    cases chosen : HashMap.oldest order SettledCohort.settledAt benchmark.settled with
    | none => rfl
    | some oldest =>
        have own := registered.settled oldest (HashMap.oldest_mem chosen)
        unfold windowMut?
        dsimp only
        rw [if_pos own]
        rfl
  · rw [if_neg full, if_neg full]
    rfl

theorem Registered.insertSettledBase?_eq (registered : benchmark.Registered) (key : BaseKey)
    (settledAt : Nat) :
    benchmark.insertSettledBase? order key settledAt =
      some (benchmark.insertSettledBase order key settledAt) := by
  unfold insertSettledBase? Benchmark.insertSettledBase
  dsimp only
  by_cases full : benchmark.config.maxSettled ≤ benchmark.settledBases.entries.length
  · rw [if_pos full, if_pos full]
    cases chosen : HashMap.oldest order (fun timestamp => timestamp) benchmark.settledBases with
    | none => rfl
    | some oldest =>
        have own := registered.settledBases oldest (HashMap.oldest_mem chosen)
        unfold windowMut?
        dsimp only
        rw [if_pos own]
        rfl
  · rw [if_neg full, if_neg full]
    rfl

/-! ## Candidates -/

section Candidates

variable {config : BenchmarkConfig} {candidate : PendingCandidate} {eventMs : Nat}

/-- The arrivals of the active providers came at or after the event. -/
def CausalCandidate (config : BenchmarkConfig) (candidate : PendingCandidate) (eventMs : Nat) :
    Prop :=
  ∀ provider ∈ config.providers, ∀ arrival, candidate.arrivals provider = some arrival →
    eventMs ≤ arrival.receivedWallMs

theorem settledAt?_eq (config : BenchmarkConfig) (candidate : PendingCandidate) (now : Nat) :
    settledAt? config candidate now = some (sampleStamp config candidate now) := by
  unfold settledAt? sampleStamp
  by_cases complete : candidate.complete config.providers = true
  · rw [if_pos complete, if_pos complete]
    have delivered := List.all_eq_true.mp complete _ config.referenceProvider_mem
    obtain ⟨latest, arrival, active, arrived, greatest⟩ :=
      PendingCandidate.exists_latestArrival config.referenceProvider_mem delivered
    refine List.max?_eq_some_iff.mpr ⟨?_, fun received member => ?_⟩
    · rw [← greatest]
      exact List.mem_map_of_mem (List.mem_filterMap.mpr ⟨latest, active, arrived⟩)
    · obtain ⟨arrival, present, rfl⟩ := List.mem_map.mp member
      obtain ⟨provider, active, arrived⟩ := List.mem_filterMap.mp present
      exact PendingCandidate.received_le_latestArrival active arrived
  · rw [if_neg complete, if_neg complete]

/-- Writing the values of some items one after the other. -/
theorem foldl_update {Item Value : Type*} [DecidableEq Item] (value : Item → Value)
    (items : List Item) (row : Item → Value) (item : Item) :
    items.foldl (fun row item => Function.update row item (value item)) row item =
      if item ∈ items then value item else row item := by
  induction items generalizing row with
  | nil => rfl
  | cons first rest ih =>
      rw [List.foldl_cons, ih, Function.update_apply]
      by_cases later : item ∈ rest
      · rw [if_pos later, if_pos (List.mem_cons_of_mem first later)]
      · rw [if_neg later]
        by_cases same : item = first
        · subst same
          rw [if_pos rfl, if_pos List.mem_cons_self]
        · rw [if_neg same, if_neg (List.not_mem_cons_of_ne_of_not_mem same later)]

theorem latencyRow?_eq (complete : candidate.complete config.providers = true)
    (causal : CausalCandidate config candidate eventMs) :
    latencyRow? config candidate eventMs = some (latencyRow config candidate eventMs) := by
  have each : ∀ (row : Provider → Nat) provider, provider ∈ config.providers → True →
      (do return Function.update row provider (← latency? candidate eventMs provider) :
        Option (Provider → Nat)) =
        some (Function.update row provider (latencyRow config candidate eventMs provider)) ∧
      True := by
    intro row provider active _
    obtain ⟨arrival, arrived⟩ := PendingCandidate.arrival_of_complete complete active
    refine ⟨?_, trivial⟩
    unfold latency? latencyRow
    rw [arrived, if_pos active]
    dsimp only [Option.bind_eq_bind, Option.bind_some]
    rw [if_pos (causal provider active arrival arrived)]
    rfl
  refine (foldlM_eq_some (fun _ => True) trivial each).1.trans (congrArg some ?_)
  funext provider
  rw [foldl_update]
  split
  · rfl
  · next inactive => exact (if_neg inactive).symm

/-- Counting item by item changes nothing else. -/
theorem foldl_counters {Item : Type} (count : CounterTable → Item → CounterTable)
    (items : List Item) (benchmark : Benchmark) :
    items.foldl (fun benchmark item =>
        { benchmark with counters := count benchmark.counters item }) benchmark =
      { benchmark with counters := items.foldl count benchmark.counters } := by
  induction items generalizing benchmark with
  | nil => rfl
  | cons item rest ih => exact ih { benchmark with counters := count benchmark.counters item }

/-- A pass over the active providers that counts for the coin goes through. -/
theorem Registered.foldlM_counters (registered : benchmark.Registered) {coin : String}
    (own : coin ∈ benchmark.config.coins) (test : Provider → Bool)
    (increment : Provider → ProviderCounters) (providers : List Provider) :
    providers.foldlM (fun benchmark provider =>
        if test provider then countersMut? benchmark coin provider (increment provider)
        else some benchmark) benchmark =
      some { benchmark with
        counters := providers.foldl (fun counters provider =>
          if test provider then CounterTable.bump counters coin provider (increment provider)
          else counters) benchmark.counters } ∧
    Registered { benchmark with
      counters := providers.foldl (fun counters provider =>
        if test provider then CounterTable.bump counters coin provider (increment provider)
        else counters) benchmark.counters } := by
  have each : ∀ (state : Benchmark) provider, provider ∈ providers →
      (state.Registered ∧ state.config = benchmark.config) →
      (if test provider then state.countersMut? coin provider (increment provider)
        else some state) =
        some { state with
          counters :=
            if test provider then CounterTable.bump state.counters coin provider
              (increment provider)
            else state.counters } ∧
      (Registered { state with
          counters :=
            if test provider then CounterTable.bump state.counters coin provider
              (increment provider)
            else state.counters } ∧ state.config = benchmark.config) := by
    rintro state provider _ ⟨held, sameConfig⟩
    rw [← sameConfig] at own
    cases test provider with
    | false => exact ⟨rfl, held, sameConfig⟩
    | true => exact ⟨countersMut?_eq own provider _, held.bump own provider _, sameConfig⟩
  obtain ⟨counted, held, _⟩ := foldlM_eq_some _ ⟨registered, rfl⟩ each
  rw [foldl_counters fun counters provider =>
    if test provider then CounterTable.bump counters coin provider (increment provider)
    else counters] at counted held
  exact ⟨counted, held⟩

/-- Two changes of a window are one. -/
theorem updateWindow_updateWindow (benchmark : Benchmark) (coin : String)
    (first second : CoinWindow → CoinWindow) :
    (benchmark.updateWindow coin first).updateWindow coin second =
      benchmark.updateWindow coin fun window => second (first window) := by
  unfold updateWindow
  dsimp only
  congr 1
  funext other
  split <;> rfl

theorem Registered.finalizeCandidate?_eq (registered : benchmark.Registered) {key : EventKey}
    (own : key.coin ∈ benchmark.config.coins)
    (arrived : benchmark.config.providers.any candidate.hasArrival = true)
    (causal : CausalCandidate benchmark.config candidate key.eventMs) (now : Nat)
    (seen : Provider → Bool) :
    benchmark.finalizeCandidate? order key candidate now seen =
      some (benchmark.finalizeCandidate order key candidate now seen) := by
  obtain ⟨counted, held⟩ := registered.foldlM_counters own (fun _ => true)
    (fun provider => (outcomeOf candidate seen provider).increment) benchmark.config.providers
  simp only [if_true] at counted held
  rw [finalizeCandidate_eq]
  unfold finalizeCandidate?
  dsimp only
  rw [arrived, settledAt?_eq]
  dsimp only [guard, Option.bind_eq_bind, Option.pure_def]
  rw [if_pos rfl, Option.bind_some, Option.bind_some, counted, Option.bind_some]
  unfold windowMut?
  dsimp only [updateWindow_config]
  rw [if_pos own, Option.bind_some]
  refine Option.bind_eq_some_iff.mpr ⟨_, ?_, (held.updateWindow own _).insertSettled?_eq key _⟩
  by_cases complete : candidate.complete benchmark.config.providers = true
  · rw [if_pos complete, latencyRow?_eq complete causal, Option.bind_some]
    refine (if_pos own).trans ?_
    rw [updateWindow_updateWindow]
    unfold sampleWindow coverageEntry cohortEntry sampleStamp
    simp only [complete, if_true]
  · rw [if_neg complete]
    unfold sampleWindow coverageEntry
    simp only [complete, if_false, Bool.false_eq_true]

theorem Registered.countArrivals?_eq (registered : benchmark.Registered) {coin : String}
    (own : coin ∈ benchmark.config.coins) (candidates : List PendingCandidate)
    (test : PendingCandidate → Provider → Bool) (increment : ProviderCounters) :
    benchmark.countArrivals? coin candidates test increment =
      some { benchmark with
        counters := CounterTable.countArrivals benchmark.counters coin
          benchmark.config.providers candidates test increment } ∧
    Registered { benchmark with
      counters := CounterTable.countArrivals benchmark.counters coin
        benchmark.config.providers candidates test increment } := by
  have each : ∀ (state : Benchmark) candidate, candidate ∈ candidates →
      (state.Registered ∧ state.config = benchmark.config) →
      state.config.providers.foldlM (fun state provider =>
          if test candidate provider then state.countersMut? coin provider increment
          else some state) state =
        some { state with
          counters := benchmark.config.providers.foldl (fun counters provider =>
            if test candidate provider then CounterTable.bump counters coin provider increment
            else counters) state.counters } ∧
      (Registered { state with
          counters := benchmark.config.providers.foldl (fun counters provider =>
            if test candidate provider then CounterTable.bump counters coin provider increment
            else counters) state.counters } ∧ state.config = benchmark.config) := by
    rintro state candidate _ ⟨held, sameConfig⟩
    rw [← sameConfig] at own ⊢
    obtain ⟨counted, kept⟩ := held.foldlM_counters own (test candidate) (fun _ => increment)
      state.config.providers
    exact ⟨counted, kept, rfl⟩
  obtain ⟨counted, held, _⟩ := foldlM_eq_some _ ⟨registered, rfl⟩ each
  rw [foldl_counters fun counters candidate =>
    benchmark.config.providers.foldl (fun counters provider =>
      if test candidate provider then CounterTable.bump counters coin provider increment
      else counters) counters] at counted held
  exact ⟨counted, held⟩

end Candidates

/-! ## Settlements -/

/-- The stored arrivals of a base came at or after its event. -/
def CausalBase (base : BaseKey) (pending : PendingBase) : Prop :=
  ∀ content candidate, pending.candidates.lookup content = some candidate →
    ∀ provider arrival, candidate.arrivals provider = some arrival →
      base.eventMs ≤ arrival.receivedWallMs

def Causal (benchmark : Benchmark) : Prop :=
  ∀ base pending, benchmark.pending.lookup base = some pending → CausalBase base pending

/-- What the lookups and subtractions of a call rest on. -/
structure Grounded (benchmark : Benchmark) : Prop where
  registered : benchmark.Registered
  causal : benchmark.Causal

theorem Registered.sealBase?_eq (registered : benchmark.Registered) {key : BaseKey}
    (own : key.coin ∈ benchmark.config.coins) (pending : PendingBase) (now : Nat)
    (evicted : Bool) :
    benchmark.sealBase? order key pending now evicted =
      some (benchmark.sealBase order key pending now evicted) := by
  have held : (Benchmark.insertSettledBase order
      { benchmark with pending := benchmark.pending.erase key } key now).Registered :=
    (registered.erasePending key).insertSettledBase own now
  have sameConfig : (Benchmark.insertSettledBase order
      { benchmark with pending := benchmark.pending.erase key } key now).config =
        benchmark.config := insertSettledBase_config order _ key now
  have sealed : ∀ state : Benchmark, state.Registered → state.config = benchmark.config →
      (state.countArrivals? key.coin (pending.candidates.entries.map Sigma.snd)
        (fun candidate => candidate.arrivedAfterDeadline pending.firstObserved
          benchmark.config.cohortTimeout) { late := 1 }).bind (fun state =>
        state.countArrivals? key.coin
          (((admitted order benchmark.config pending).filter fun entry =>
            !entry.2.isReference benchmark.config).map Prod.snd)
          (fun candidate => candidate.hasArrival) { orphaned := 1 }) =
      some { state with
        counters := CounterTable.countArrivals
          (CounterTable.countArrivals state.counters key.coin benchmark.config.providers
            (pending.candidates.entries.map Sigma.snd)
            (fun candidate => candidate.arrivedAfterDeadline pending.firstObserved
              benchmark.config.cohortTimeout) { late := 1 })
          key.coin benchmark.config.providers
          (((admitted order benchmark.config pending).filter fun entry =>
            !entry.2.isReference benchmark.config).map Prod.snd)
          (fun candidate => candidate.hasArrival) { orphaned := 1 } } := by
    intro state held sameConfig
    rw [← sameConfig] at own ⊢
    obtain ⟨late, kept⟩ := held.countArrivals?_eq own (pending.candidates.entries.map Sigma.snd)
      (fun candidate => candidate.arrivedAfterDeadline pending.firstObserved
        state.config.cohortTimeout) { late := 1 }
    rw [late]
    exact (kept.countArrivals?_eq own _ _ _).1
  unfold sealBase?
  dsimp only [Option.bind_eq_bind]
  rw [(registered.erasePending key).insertSettledBase?_eq key now, Option.bind_some]
  cases evicted with
  | false => exact sealed _ held sameConfig
  | true =>
      rw [← sameConfig] at own
      rw [if_pos rfl, windowMut?_eq own, Option.bind_some]
      exact sealed _ (held.updateWindow own _) sameConfig

/-- A canonical candidate has an arrival of an active provider. -/
theorem any_hasArrival_of_canonical {pending : PendingBase} {content : ContentKey}
    {candidate : PendingCandidate} {config : BenchmarkConfig}
    (member : (content, candidate) ∈ canonical order config pending) :
    config.providers.any candidate.hasArrival = true := by
  have reference : candidate.isReference config = true := (List.mem_filter.mp member).2
  unfold PendingCandidate.isReference at reference
  split at reference
  · exact reference
  · exact List.any_eq_true.mpr ⟨_, config.referenceProvider_mem, reference⟩

theorem CausalBase.candidate {base : BaseKey} {pending : PendingBase} {content : ContentKey}
    {candidate : PendingCandidate} {config : BenchmarkConfig} (causal : CausalBase base pending)
    (member : (content, candidate) ∈ canonical order config pending) :
    CausalCandidate config candidate base.eventMs := by
  intro provider active arrival arrived
  obtain ⟨stored, found, rfl⟩ := mem_admitted order (List.mem_filter.mp member).1
  exact causal content stored found provider arrival (arrivals_withoutLate active arrived).1

theorem Grounded.settle?_eq (grounded : benchmark.Grounded) (key : BaseKey) (now : Nat)
    (evicted : Bool) :
    benchmark.settle? order key now evicted = some (benchmark.settle order key now evicted) := by
  cases found : benchmark.pending.lookup key with
  | none =>
      rw [settle_of_lookup_none order benchmark now evicted found]
      unfold settle?
      rw [found]
  | some pending =>
      have own := grounded.registered.pending key (HashMap.mem_of_lookup found)
      rw [settle_of_lookup order benchmark now evicted found]
      unfold settle?
      rw [found]
      dsimp only [Option.bind_eq_bind]
      rw [grounded.registered.sealBase?_eq own, Option.bind_some]
      have each : ∀ (state : Benchmark) entry,
          entry ∈ canonical order benchmark.config pending →
          (state.Registered ∧ state.config = benchmark.config) →
          state.finalizeCandidate? order (eventKey key entry.1) entry.2 now
              (noncanonicalSeen benchmark.config (admitted order benchmark.config pending)) =
            some (state.finalizeCandidate order (eventKey key entry.1) entry.2 now
              (noncanonicalSeen benchmark.config (admitted order benchmark.config pending))) ∧
          ((state.finalizeCandidate order (eventKey key entry.1) entry.2 now
              (noncanonicalSeen benchmark.config
                (admitted order benchmark.config pending))).Registered ∧
            (state.finalizeCandidate order (eventKey key entry.1) entry.2 now
              (noncanonicalSeen benchmark.config
                (admitted order benchmark.config pending))).config = benchmark.config) := by
        rintro state ⟨content, candidate⟩ member ⟨held, sameConfig⟩
        have ofKey : (eventKey key content).coin ∈ state.config.coins := by
          rw [sameConfig]
          exact own
        refine ⟨held.finalizeCandidate?_eq ofKey ?_ ?_ now _,
          held.finalizeCandidate ofKey candidate now _, ?_⟩
        · rw [sameConfig]
          exact any_hasArrival_of_canonical member
        · rw [sameConfig]
          exact (grounded.causal key pending found).candidate member
        · rw [finalizeCandidate_config, sameConfig]
      exact (foldlM_eq_some _ ⟨grounded.registered.sealBase own pending now evicted,
        sealBase_config order benchmark key pending now evicted⟩ each).1

theorem Causal.settle (causal : benchmark.Causal) (key : BaseKey) (now : Nat) (evicted : Bool) :
    (benchmark.settle order key now evicted).Causal := by
  intro base pending found
  rw [settle_pending] at found
  exact causal base pending (HashMap.lookup_erase_eq_some.mp found).2

theorem Grounded.settle (grounded : benchmark.Grounded) (key : BaseKey) (now : Nat)
    (evicted : Bool) : (benchmark.settle order key now evicted).Grounded :=
  ⟨grounded.registered.settle key now evicted, grounded.causal.settle key now evicted⟩

theorem Grounded.tick?_eq (grounded : benchmark.Grounded) (now : Nat) :
    benchmark.tick? order now = some (benchmark.tick order now) := by
  unfold tick?
  rw [(foldlM_eq_some Grounded grounded fun _ key _ held =>
    ⟨held.settle?_eq key now false, held.settle key now false⟩).1]
  rfl

/-! ## Events -/

section Events

variable {event : MarketEvent}

theorem Causal.openedBase (causal : benchmark.Causal) (event : MarketEvent) :
    CausalBase event.key.base (benchmark.openedBase event) := by
  intro content candidate found provider arrival arrived
  unfold Benchmark.openedBase at found
  dsimp only at found
  cases pending : benchmark.pending.lookup event.key.base with
  | none =>
      rw [pending] at found
      cases found
  | some opened =>
      rw [pending] at found
      exact causal event.key.base opened pending content candidate found provider arrival arrived

/-- A base stays causal with a candidate whose arrivals are old or those of the event. -/
theorem Causal.heldBase (causal : benchmark.Causal)
    (past : event.key.eventMs ≤ event.receivedWallMs) {candidate : PendingCandidate}
    (known : ∀ provider arrival, candidate.arrivals provider = some arrival →
      (benchmark.openedCandidate event).arrivals provider = some arrival ∨
        (event.provider = provider ∧ event.received = arrival.received ∧
          event.receivedWallMs = arrival.receivedWallMs)) :
    CausalBase event.key.base (benchmark.heldBase event candidate) := by
  intro content other found provider arrival arrived
  rcases HashMap.lookup_insert_eq_some.mp found with ⟨_, same⟩ | ⟨_, before⟩
  · rw [← same] at arrived
    rcases known provider arrival arrived with earlier | ⟨_, _, sameWall⟩
    · obtain ⟨stored, storedFound, storedArrived⟩ := openedCandidate_arrivals earlier
      exact causal.openedBase event _ stored storedFound provider arrival storedArrived
    · rw [← sameWall]
      exact past
  · exact causal.openedBase event content other before provider arrival arrived

theorem Causal.withPending (causal : benchmark.Causal) {base : BaseKey} {cohort : PendingBase}
    (ofBase : CausalBase base cohort) : (benchmark.withPending base cohort).Causal := by
  intro other pending found
  rcases HashMap.lookup_insert_eq_some.mp found with ⟨sameBase, same⟩ | ⟨_, before⟩
  · rw [sameBase, ← same]
    exact ofBase
  · exact causal other pending before

/-- The event is stored with the arrivals that its candidate had. -/
theorem Causal.withEvent (causal : benchmark.Causal)
    (past : event.key.eventMs ≤ event.receivedWallMs) :
    (benchmark.withPending event.key.base (benchmark.heldBase event
      (withArrival (benchmark.openedCandidate event) event))).Causal :=
  causal.withPending (causal.heldBase past fun _ _ arrived => withArrival_arrivals arrived)

theorem Causal.store (causal : benchmark.Causal)
    (past : event.key.eventMs ≤ event.receivedWallMs) :
    (benchmark.store order event).Causal := by
  rw [store_eq]
  split_ifs
  · exact causal.withPending (causal.openedBase event)
  · exact causal.withPending (causal.heldBase past fun _ _ arrived => Or.inl arrived)
  · exact (causal.withEvent past).settle event.key.base event.received false
  · exact causal.withEvent past

theorem Grounded.store?_eq (grounded : benchmark.Grounded)
    (own : event.key.coin ∈ benchmark.config.coins)
    (past : event.key.eventMs ≤ event.receivedWallMs) :
    benchmark.store? order event = some (benchmark.store order event) := by
  have whole : benchmark.store? order event =
      if benchmark.Overflowing event then
        ((benchmark.withPending event.key.base (benchmark.openedBase event)).countersMut?
          event.key.coin event.provider { signatureOverflow := 1 }).bind fun benchmark =>
            benchmark.windowMut? event.key.coin fun window =>
              window.markIntegrityLoss event.received
      else if (benchmark.openedCandidate event).hasArrival event.provider then
        (benchmark.withPending event.key.base
          (benchmark.heldBase event (benchmark.openedCandidate event))).countersMut?
            event.key.coin event.provider { duplicate := 1 }
      else if benchmark.config.providers.length = 1 then
        (benchmark.withPending event.key.base
          (benchmark.heldBase event (withArrival (benchmark.openedCandidate event) event))).settle?
            order event.key.base event.received false
      else
        some (benchmark.withPending event.key.base
          (benchmark.heldBase event (withArrival (benchmark.openedCandidate event) event))) := rfl
  have inside : ∀ cohort, event.key.coin ∈
      (benchmark.withPending event.key.base cohort).config.coins := fun _ => own
  rw [whole, store_eq]
  split_ifs
  · exact countersMut?_windowMut?_eq (inside _) _ _ _
  · exact countersMut?_eq (inside _) _ _
  · have held : (benchmark.withPending event.key.base (benchmark.heldBase event
        (withArrival (benchmark.openedCandidate event) event))).Grounded :=
      ⟨grounded.registered.withPending own _, grounded.causal.withEvent past⟩
    exact held.settle?_eq event.key.base event.received false
  · rfl

theorem Grounded.sealOverdue?_eq (grounded : benchmark.Grounded) (base : BaseKey)
    (received : Nat) :
    benchmark.sealOverdue? order base received =
      some (benchmark.sealOverdue order base received) := by
  unfold sealOverdue? Benchmark.sealOverdue
  cases benchmark.pending.lookup base with
  | none => rfl
  | some pending =>
      dsimp only
      split
      · exact grounded.settle?_eq base received false
      · rfl

theorem Grounded.sealOverdue (grounded : benchmark.Grounded) (base : BaseKey) (received : Nat) :
    (benchmark.sealOverdue order base received).Grounded ∧
      (benchmark.sealOverdue order base received).config = benchmark.config := by
  rcases sealOverdue_cases order benchmark base received with ⟨same, _⟩ | ⟨_, _, _, same⟩
  · rw [same]
    exact ⟨grounded, rfl⟩
  · rw [same]
    exact ⟨grounded.settle base received false, settle_config order benchmark base received false⟩

theorem Grounded.makeRoom?_eq (grounded : benchmark.Grounded) (base : BaseKey) (received : Nat) :
    benchmark.makeRoom? order base received = some (benchmark.makeRoom order base received) := by
  unfold makeRoom? Benchmark.makeRoom
  split
  · cases HashMap.oldest order PendingBase.firstObserved benchmark.pending with
    | none => rfl
    | some oldest => exact grounded.settle?_eq oldest received true
  · rfl

theorem Grounded.makeRoom (grounded : benchmark.Grounded) (base : BaseKey) (received : Nat) :
    (benchmark.makeRoom order base received).Grounded ∧
      (benchmark.makeRoom order base received).config = benchmark.config := by
  rcases makeRoom_cases order benchmark base received with same | ⟨oldest, _, _, same⟩
  · rw [same]
    exact ⟨grounded, rfl⟩
  · rw [same]
    exact ⟨grounded.settle oldest received true, settle_config order benchmark oldest received true⟩

theorem Grounded.recordAccepted?_eq (grounded : benchmark.Grounded)
    (own : event.key.coin ∈ benchmark.config.coins)
    (past : event.key.eventMs ≤ event.receivedWallMs) :
    benchmark.recordAccepted? order event = some (benchmark.recordAccepted order event) := by
  have counted : (benchmark.bump event.key.coin event.provider { observed := 1 }).Grounded :=
    ⟨grounded.registered.bump own _ _, grounded.causal⟩
  obtain ⟨held, sameConfig⟩ := counted.sealOverdue event.key.base event.received
  unfold recordAccepted? recordAccepted
  dsimp only [Option.bind_eq_bind]
  rw [countersMut?_eq own, Option.bind_some, counted.sealOverdue?_eq, Option.bind_some]
  rw [bump_config] at sameConfig
  generalize Benchmark.sealOverdue order _ event.key.base event.received = state
    at held sameConfig ⊢
  rw [← sameConfig] at own
  by_cases isSealed : event.key.base ∈ state.settledBases
  · rw [if_pos isSealed, if_pos isSealed]
    exact countersMut?_eq own event.provider _
  · rw [if_neg isSealed, if_neg isSealed, held.makeRoom?_eq, Option.bind_some]
    obtain ⟨roomy, roomConfig⟩ := held.makeRoom event.key.base event.received
    rw [← roomConfig] at own
    exact roomy.store?_eq own past

theorem Causal.recordAccepted (causal : benchmark.Causal)
    (past : event.key.eventMs ≤ event.receivedWallMs) :
    (benchmark.recordAccepted order event).Causal := by
  refine recordAccepted_induction order benchmark Causal Causal causal ?_ ?_ ?_ ?_
  · exact fun _ _ _ _ _ held => held.settle event.key.base event.received false
  · exact fun _ oldest _ _ _ _ held => held.settle oldest event.received true
  · exact fun _ _ _ held => held
  · exact fun _ _ _ _ held => held.store past

end Events

theorem Causal.step {call : Call} {after : Benchmark} (causal : benchmark.Causal)
    (stepped : benchmark.step call = some after) : after.Causal := by
  refine step_induction Causal stepped causal ?_ ?_ ?_ ?_ ?_ ?_ ?_
  · exact fun _ _ _ _ _ => causal
  · exact fun _ _ _ _ _ _ _ _ => causal
  · exact fun _ _ _ _ accepted => causal.recordAccepted accepted.past
  · exact fun _ _ key now _ _ _ held => held.settle key now false
  · exact fun _ _ _ _ held => held
  · exact fun _ _ held => held
  · exact fun _ _ _ _ => causal

theorem Grounded.step (grounded : benchmark.Grounded) {call : Call} {after : Benchmark}
    (stepped : benchmark.step call = some after) : after.Grounded :=
  ⟨grounded.registered.step stepped, grounded.causal.step stepped⟩

theorem grounded_new (config : BenchmarkConfig) (now wallNow : Nat) :
    (Benchmark.new config now wallNow).Grounded :=
  ⟨registered_new config now wallNow, fun _ _ found => nomatch found⟩

theorem Grounded.recordMarket?_eq (grounded : benchmark.Grounded) (event : MarketEvent) :
    benchmark.recordMarket? order event = benchmark.recordMarket order event := by
  unfold recordMarket? recordMarket
  by_cases known : event.key.coin ∈ benchmark.config.coins
  · rw [if_neg (not_not_intro known)]
    split
    · rfl
    split
    · exact countersMut?_windowMut?_eq known _ _ _
    split
    · exact countersMut?_windowMut?_eq known _ _ _
    next past => exact grounded.recordAccepted?_eq known (Nat.le_of_not_lt past)
  · -- every branch counts for the coin first
    have unknown : ∀ increment,
        benchmark.countersMut? event.key.coin event.provider increment = none :=
      fun _ => if_neg known
    rw [if_pos known]
    unfold recordAccepted?
    dsimp only [Option.bind_eq_bind]
    rw [unknown, unknown, unknown]
    split
    · rfl
    · split
      · rfl
      · split <;> rfl

theorem Grounded.record?_eq (grounded : benchmark.Grounded) (event : ProbeEvent) :
    benchmark.record? order event = benchmark.record order event := by
  have counted : ∀ coin provider increment, benchmark.countersMut? coin provider increment =
      if coin ∉ benchmark.config.coins then none
      else some (benchmark.bump coin provider increment) := by
    intro coin provider increment
    by_cases own : coin ∈ benchmark.config.coins
    · rw [countersMut?_eq own, if_neg (not_not_intro own)]
    · rw [countersMut?, if_neg own, if_pos own]
  cases event with
  | market event => exact grounded.recordMarket?_eq event
  | reconnect provider coin => exact counted coin provider _
  | sequenceGap provider coin missing => exact counted coin provider _
  | replay provider coin messages hasGap => exact counted coin provider _

/-- The active providers of a cohort have a least latency. -/
theorem unreportedOutcomes?_eq (config : BenchmarkConfig) (window : CoinWindow) (now : Nat) :
    unreportedOutcomes? window now config.providers =
      some (unreportedOutcomes window now config.providers) := by
  refine (foldlM_eq_some (fun _ => True) trivial fun counts cohort _ _ => ⟨?_, trivial⟩).1
  cases least : (config.providers.map cohort.latencyMs).min? with
  | none =>
      have empty := List.min?_eq_none_iff.mp least
      exact absurd (List.map_eq_nil_iff.mp empty) config.providers_ne_nil
  | some least => rfl

theorem Grounded.windowEvents?_eq (grounded : benchmark.Grounded) (now wallNowMs : Nat)
    (signals : RuntimeSignals) (clock : ClockHealthSnapshot) :
    benchmark.windowEvents? order now wallNowMs signals clock =
      benchmark.windowEvents order now wallNowMs signals clock := by
  have prepared : Grounded { benchmark with preparedOutcomeInterval := none } :=
    ⟨⟨grounded.registered.pending, grounded.registered.settledBases,
      grounded.registered.settled, grounded.registered.windows, grounded.registered.counters⟩,
      grounded.causal⟩
  unfold windowEvents? windowEvents
  dsimp only [Option.bind_eq_bind, guard]
  rw [prepared.tick?_eq, Option.bind_some]
  have sameConfig := tick_config order { benchmark with preparedOutcomeInterval := none } now
  dsimp only at sameConfig
  generalize Benchmark.tick order { benchmark with preparedOutcomeInterval := none } now = ticked
    at sameConfig ⊢
  rw [sameConfig]
  by_cases zero : asMillis benchmark.config.publishInterval = 0
  · rw [if_pos zero, if_neg (not_not_intro zero)]
    rfl
  · rw [if_neg zero, if_pos zero]
    have counted : (fun coin =>
        if benchmark.config.hasProviderComparison then
          unreportedOutcomes? (ticked.windows coin) now benchmark.config.providers
        else some {}) = fun coin => pure
          (if benchmark.config.hasProviderComparison then
            unreportedOutcomes (ticked.windows coin) now benchmark.config.providers
          else {}) := by
      funext coin
      split
      · exact unreportedOutcomes?_eq benchmark.config (ticked.windows coin) now
      · rfl
    change (if _ then _ else _) = _
    split
    · rfl
    · rw [counted, List.mapM_pure]
      rfl

/-- In a grounded state no call panics: with the panics it does what it does without them. -/
theorem Grounded.step?_eq (grounded : benchmark.Grounded) (call : Call) :
    benchmark.step? call = benchmark.step call := by
  cases call with
  | record order event => exact grounded.record?_eq event
  | tick order now => exact grounded.tick?_eq now
  | windowEvents order now wallNowMs signals clock =>
      exact congrArg (Option.map Prod.fst) (grounded.windowEvents?_eq now wallNowMs signals clock)
  | commitPreparedPublication => rfl
  | rejectPreparedPublication => rfl

end Benchmark

end MarketBenchmark
