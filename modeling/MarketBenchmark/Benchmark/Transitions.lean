import MarketBenchmark.Benchmark.State

/-!
# Recording, settling and pruning

The functions of the benchmark that consume probe events and ticks.  Every
place where the code iterates over a hash map takes the iteration order as an
argument.  `record` is undefined exactly where the code panics: on a counter of
a coin that is not configured.
-/

namespace MarketBenchmark

open Foundation.HashMaps
open Foundation.TimedRing

/-! ## Candidates -/

namespace PendingCandidate

/-- The arrival of the provider was received at least `cohortTimeout` after the
base was first observed. -/
def arrivedAfterDeadline (candidate : PendingCandidate) (firstObserved : Nat)
    (cohortTimeout : Nat) (provider : Provider) : Bool :=
  match candidate.arrivals provider with
  | none => false
  | some arrival => decide (cohortTimeout ≤ arrival.received - firstObserved)

/-- Drop the arrivals of active providers that missed the deadline. -/
def withoutLate (candidate : PendingCandidate) (providers : List Provider)
    (firstObserved : Nat) (cohortTimeout : Nat) : PendingCandidate :=
  { candidate with
    arrivals := fun provider =>
      if provider ∈ providers ∧
          candidate.arrivedAfterDeadline firstObserved cohortTimeout provider = true then none
      else candidate.arrivals provider }

def hasArrival (candidate : PendingCandidate) (provider : Provider) : Bool :=
  (candidate.arrivals provider).isSome

/-- Every active provider delivered the candidate. -/
def complete (candidate : PendingCandidate) (providers : List Provider) : Bool :=
  providers.all candidate.hasArrival

/-- The latest receipt among the active providers. -/
def latestArrival (candidate : PendingCandidate) (providers : List Provider) : Nat :=
  ((providers.filterMap candidate.arrivals).map Observation.received).foldr max 0

/-- The content counts as canonical when its base settles. -/
def isReference (candidate : PendingCandidate) (config : BenchmarkConfig) : Bool :=
  if config.canonicalByAnyArrival then config.providers.any candidate.hasArrival
  else candidate.hasArrival config.referenceProvider

end PendingCandidate

/-! ## Counters -/

/-- Counters by coin and provider. -/
abbrev CounterTable : Type := String → Provider → ProviderCounters

namespace CounterTable

/-- Advance the counters of one provider of one coin. -/
def bump (counters : CounterTable) (coin : String) (provider : Provider)
    (increment : ProviderCounters) : CounterTable :=
  fun otherCoin other =>
    if otherCoin = coin ∧ other = provider then counters otherCoin other + increment
    else counters otherCoin other

/-- One pass over the candidates and active providers of a base: every arrival
that passes the test advances its provider's counters. -/
def countArrivals (counters : CounterTable) (coin : String) (providers : List Provider)
    (candidates : List PendingCandidate) (test : PendingCandidate → Provider → Bool)
    (increment : ProviderCounters) : CounterTable :=
  candidates.foldl (fun counters candidate =>
    providers.foldl (fun counters provider =>
      if test candidate provider then counters.bump coin provider increment
      else counters) counters) counters

end CounterTable

/-- What settling one candidate adds to the counters of a provider. -/
def CoverageOutcome.increment : CoverageOutcome → ProviderCounters
  | .matched => { matched := 1 }
  | .missing => { missing := 1 }
  | .mismatch => { missing := 1, mismatch := 1 }

/-! ## Windows -/

namespace CoinWindow

/-- Insert a coverage entry; past the cap the oldest entry is evicted. -/
def insertCoverage (window : CoinWindow) (maxRollingCohorts : Nat) (now : Nat)
    (entry : CoverageCohort) : CoinWindow :=
  let coverage := insertInOrder CoverageCohort.settledAt window.coverage entry
  if maxRollingCohorts < coverage.length then
    { window with
      coverage := coverage.tail
      coverageEvictions := window.coverageEvictions + 1
      lastIntegrityLoss := some now
      losses := now :: window.losses }
  else { window with coverage := coverage }

/-- Commit a complete cohort; past the cap the oldest cohort is evicted. -/
def insertCohort (window : CoinWindow) (maxRollingCohorts : Nat) (now : Nat)
    (entry : CommittedCohort) : CoinWindow :=
  let cohorts := insertInOrder CommittedCohort.committedAt window.cohorts entry
  let completeCohorts := window.completeCohorts + 1
  if maxRollingCohorts < cohorts.length then
    { window with
      cohorts := cohorts.tail
      completeCohorts := completeCohorts
      rollingEvictions := window.rollingEvictions + 1
      lastIntegrityLoss := some now
      losses := now :: window.losses }
  else { window with cohorts := cohorts, completeCohorts := completeCohorts }

/-- A bounded-state loss outside the rings. -/
def evictState (window : CoinWindow) (now : Nat) : CoinWindow :=
  { window with
    stateEvictions := window.stateEvictions + 1
    lastIntegrityLoss := some now
    losses := now :: window.losses }

def markIntegrityLoss (window : CoinWindow) (now : Nat) : CoinWindow :=
  { window with lastIntegrityLoss := some now, losses := now :: window.losses }

/-- Drop the samples that left the rolling window. -/
def prune (window : CoinWindow) (rollingWindow : Nat) (now : Nat) : CoinWindow :=
  { window with
    cohorts := window.cohorts.filter fun cohort =>
      decide (now - cohort.committedAt ≤ rollingWindow)
    coverage := window.coverage.filter fun cohort =>
      decide (now - cohort.settledAt ≤ rollingWindow) }

end CoinWindow

namespace Benchmark

/-- Change the window of one coin. -/
def updateWindow (benchmark : Benchmark) (coin : String) (change : CoinWindow → CoinWindow) :
    Benchmark :=
  { benchmark with
    windows := fun other =>
      if other = coin then change (benchmark.windows other) else benchmark.windows other }

def bump (benchmark : Benchmark) (coin : String) (provider : Provider)
    (increment : ProviderCounters) : Benchmark :=
  { benchmark with counters := CounterTable.bump benchmark.counters coin provider increment }

def markIntegrityLoss (benchmark : Benchmark) (coin : String) (now : Nat) : Benchmark :=
  benchmark.updateWindow coin fun window => window.markIntegrityLoss now

/-! ## Tombstones -/

/-- `insert_settled`: a full map first evicts an entry settled earliest. -/
def insertSettled (order : IterationOrder) (benchmark : Benchmark) (key : EventKey)
    (settled : SettledCohort) : Benchmark :=
  let benchmark :=
    if benchmark.config.maxSettled ≤ benchmark.settled.entries.length then
      match HashMap.oldest order SettledCohort.settledAt benchmark.settled with
      | none => benchmark
      | some oldest =>
          { benchmark with settled := benchmark.settled.erase oldest }.updateWindow
            oldest.coin fun window => window.evictState settled.settledAt
    else benchmark
  { benchmark with settled := benchmark.settled.insert key settled }

/-- `insert_settled_base`: a full map first evicts an entry settled earliest. -/
def insertSettledBase (order : IterationOrder) (benchmark : Benchmark) (key : BaseKey)
    (settledAt : Nat) : Benchmark :=
  let benchmark :=
    if benchmark.config.maxSettled ≤ benchmark.settledBases.entries.length then
      match HashMap.oldest order (fun timestamp => timestamp) benchmark.settledBases with
      | none => benchmark
      | some oldest =>
          { benchmark with settledBases := benchmark.settledBases.erase oldest }.updateWindow
            oldest.coin fun window => window.evictState settledAt
    else benchmark
  { benchmark with settledBases := benchmark.settledBases.insert key settledAt }

/-! ## Settling -/

/-- How one active provider fares on a settled candidate. -/
def outcomeOf (candidate : PendingCandidate) (noncanonicalSeen : Provider → Bool)
    (provider : Provider) : CoverageOutcome :=
  if candidate.hasArrival provider then .matched
  else if noncanonicalSeen provider then .mismatch
  else .missing

/-- The latency row of a complete cohort; inactive providers keep zero. -/
def latencyRow (config : BenchmarkConfig) (candidate : PendingCandidate) (eventMs : Nat)
    (provider : Provider) : Nat :=
  if provider ∈ config.providers then
    match candidate.arrivals provider with
    | none => 0
    | some arrival => arrival.receivedWallMs - eventMs
  else 0

def finalizeCandidate (order : IterationOrder) (benchmark : Benchmark) (key : EventKey)
    (candidate : PendingCandidate) (now : Nat) (noncanonicalSeen : Provider → Bool) :
    Benchmark :=
  let config := benchmark.config
  let providers := config.providers
  let complete := candidate.complete providers
  let settledAt := if complete then candidate.latestArrival providers else now
  let outcome := outcomeOf candidate noncanonicalSeen
  let counters := providers.foldl (fun counters provider =>
    CounterTable.bump counters key.coin provider (outcome provider).increment)
    benchmark.counters
  let coverage : CoverageCohort :=
    { settledAt := settledAt
      outcomes := fun provider => if provider ∈ providers then outcome provider else .missing
      origin := key }
  let benchmark := { benchmark with counters := counters }.updateWindow key.coin fun window =>
    let window := window.insertCoverage config.maxRollingCohorts now coverage
    if complete then
      window.insertCohort config.maxRollingCohorts now
        { committedAt := settledAt
          eventMs := key.eventMs
          latencyMs := latencyRow config candidate key.eventMs
          commitDelayMs := asMillis (settledAt - candidate.firstObserved)
          outcomeReported := false
          origin := key
          serial := window.completeCohorts + 1 }
    else window
  benchmark.insertSettled order key
    { settledAt := settledAt
      matchedMask := fun provider =>
        decide (provider ∈ providers) && candidate.hasArrival provider }

/-- The candidates of a base at settlement, without the arrivals that missed
the deadline, in iteration order. -/
def admitted (order : IterationOrder) (config : BenchmarkConfig) (pending : PendingBase) :
    List (ContentKey × PendingCandidate) :=
  (order.arrange pending.candidates.entries).map fun entry =>
    (entry.1, entry.2.withoutLate config.providers pending.firstObserved config.cohortTimeout)

/-- An active provider delivered some content that is not canonical. -/
def noncanonicalSeen (config : BenchmarkConfig)
    (candidates : List (ContentKey × PendingCandidate)) (provider : Provider) : Bool :=
  decide (provider ∈ config.providers) &&
    candidates.any fun entry =>
      !entry.2.isReference config && entry.2.hasArrival provider

def settle (order : IterationOrder) (benchmark : Benchmark) (key : BaseKey) (now : Nat)
    (evicted : Bool) : Benchmark :=
  match benchmark.pending.lookup key with
  | none => benchmark
  | some pending =>
      let config := benchmark.config
      let benchmark := { benchmark with pending := benchmark.pending.erase key }
      let benchmark := benchmark.insertSettledBase order key now
      let benchmark :=
        if evicted then benchmark.updateWindow key.coin fun window => window.evictState now
        else benchmark
      let candidates := admitted order config pending
      let counters := CounterTable.countArrivals benchmark.counters key.coin config.providers
        (pending.candidates.entries.map Sigma.snd)
        (fun candidate =>
          candidate.arrivedAfterDeadline pending.firstObserved config.cohortTimeout)
        { late := 1 }
      let orphans := (candidates.filter fun entry => !entry.2.isReference config).map Prod.snd
      let counters := CounterTable.countArrivals counters key.coin config.providers
        orphans (fun candidate => candidate.hasArrival) { orphaned := 1 }
      let seen := noncanonicalSeen config candidates
      (candidates.filter fun entry => entry.2.isReference config).foldl
        (fun benchmark entry =>
          benchmark.finalizeCandidate order
            { coin := key.coin, eventMs := key.eventMs, content := entry.1 }
            entry.2 now seen)
        { benchmark with counters := counters }

/-! ## Ticks -/

def prune (benchmark : Benchmark) (now : Nat) : Benchmark :=
  let ttl := benchmark.config.rollingWindow
  { benchmark with
    settledBases := benchmark.settledBases.retain fun _ settledAt =>
      decide (now - settledAt ≤ ttl)
    settled := benchmark.settled.retain fun _ cohort =>
      decide (now - cohort.settledAt ≤ ttl)
    windows := fun coin => (benchmark.windows coin).prune ttl now }

/-- The bases that a tick settles, in iteration order. -/
def expired (order : IterationOrder) (benchmark : Benchmark) (now : Nat) : List BaseKey :=
  ((order.arrange benchmark.pending.entries).filter fun entry =>
    decide (benchmark.config.cohortTimeout ≤ now - entry.2.firstObserved)).map Sigma.fst

def tick (order : IterationOrder) (benchmark : Benchmark) (now : Nat) : Benchmark :=
  ((benchmark.expired order now).foldl
    (fun benchmark key => benchmark.settle order key now false) benchmark).prune now

/-! ## Market events -/

/-- Settle the base of an event that arrives after its deadline. -/
def sealOverdue (order : IterationOrder) (benchmark : Benchmark) (base : BaseKey)
    (received : Nat) : Benchmark :=
  match benchmark.pending.lookup base with
  | none => benchmark
  | some pending =>
      if benchmark.config.cohortTimeout ≤ received - pending.firstObserved then
        benchmark.settle order base received false
      else benchmark

/-- An event of a sealed base is a duplicate of a matched arrival or late. -/
def recordSealed (benchmark : Benchmark) (event : MarketEvent) : Benchmark :=
  let matchedBefore :=
    match benchmark.settled.lookup event.key with
    | none => false
    | some settled => settled.matchedMask event.provider
  benchmark.bump event.key.coin event.provider
    (if matchedBefore then { duplicate := 1 } else { late := 1 })

/-- A new base at the pending cap evicts the base observed earliest. -/
def makeRoom (order : IterationOrder) (benchmark : Benchmark) (base : BaseKey)
    (received : Nat) : Benchmark :=
  if base ∉ benchmark.pending ∧
      benchmark.config.maxPending ≤ benchmark.pending.entries.length then
    match HashMap.oldest order PendingBase.firstObserved benchmark.pending with
    | none => benchmark
    | some oldest => benchmark.settle order oldest received true
  else benchmark

/-- Store the arrival of an event in its base, opening base and candidate as needed. -/
def store (order : IterationOrder) (benchmark : Benchmark) (event : MarketEvent) : Benchmark :=
  let base := event.key.base
  let opened := (benchmark.pending.lookup base).getD (PendingBase.new event.received)
  let cohort := { opened with firstObserved := min opened.firstObserved event.received }
  if event.key.content ∉ cohort.candidates ∧
      maxSignaturesPerBase ≤ cohort.candidates.entries.length then
    ({ benchmark with pending := benchmark.pending.insert base cohort }.bump
      event.key.coin event.provider { signatureOverflow := 1 }).markIntegrityLoss
        event.key.coin event.received
  else
    let found := (cohort.candidates.lookup event.key.content).getD
      (PendingCandidate.new event.received)
    let candidate := { found with firstObserved := min found.firstObserved event.received }
    if candidate.hasArrival event.provider then
      let cohort :=
        { cohort with candidates := cohort.candidates.insert event.key.content candidate }
      { benchmark with pending := benchmark.pending.insert base cohort }.bump
        event.key.coin event.provider { duplicate := 1 }
    else
      let candidate : PendingCandidate :=
        { candidate with
          arrivals := Function.update candidate.arrivals event.provider
            (some { received := event.received, receivedWallMs := event.receivedWallMs }) }
      let cohort :=
        { cohort with candidates := cohort.candidates.insert event.key.content candidate }
      let benchmark := { benchmark with pending := benchmark.pending.insert base cohort }
      -- `settle_immediately`: a single source has nobody to wait for
      if benchmark.config.providers.length = 1 then
        benchmark.settle order base event.received false
      else benchmark

/-- Record an event of an active provider whose timestamp was accepted. -/
def recordAccepted (order : IterationOrder) (benchmark : Benchmark) (event : MarketEvent) :
    Benchmark :=
  let base := event.key.base
  let benchmark := benchmark.bump event.key.coin event.provider { observed := 1 }
  let benchmark := benchmark.sealOverdue order base event.received
  if base ∈ benchmark.settledBases then benchmark.recordSealed event
  else (benchmark.makeRoom order base event.received).store order event

def recordMarket (order : IterationOrder) (benchmark : Benchmark) (event : MarketEvent) :
    Option Benchmark :=
  if event.provider ∉ benchmark.config.providers then some benchmark
  else if event.key.coin ∉ benchmark.config.coins then none
  else if event.key.eventMs = 0 then
    some ((benchmark.bump event.key.coin event.provider { futureTimestamp := 1 }).markIntegrityLoss
      event.key.coin event.received)
  else if event.receivedWallMs < event.key.eventMs then
    let ahead := event.key.eventMs - event.receivedWallMs
    some ((benchmark.bump event.key.coin event.provider
      (if maxFutureSkewMs < ahead then { futureTimestamp := 1 }
        else { negativeLatency := 1 })).markIntegrityLoss event.key.coin event.received)
  else some (benchmark.recordAccepted order event)

def record (order : IterationOrder) (benchmark : Benchmark) (event : ProbeEvent) :
    Option Benchmark :=
  match event with
  | .market event => benchmark.recordMarket order event
  | .reconnect provider coin =>
      if coin ∉ benchmark.config.coins then none
      else some (benchmark.bump coin provider { reconnects := 1 })
  | .sequenceGap provider coin missing =>
      if coin ∉ benchmark.config.coins then none
      else some (benchmark.bump coin provider { sequenceGaps := missing })
  | .replay provider coin messages hasGap =>
      if coin ∉ benchmark.config.coins then none
      else some (benchmark.bump coin provider
        { replayCount := messages, replayGaps := hasGap.toNat })

end Benchmark

end MarketBenchmark
