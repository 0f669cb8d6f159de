import MarketBenchmark.Benchmark.Clock
import MarketBenchmark.Benchmark.Transitions

/-!
# Publication windows

`windowEvents` prepares one row for each coin and active provider,
`commitPreparedPublication` marks the published outcomes and moves the cursor,
`rejectPreparedPublication` forgets what was prepared.  Rows carry the fields
that are decided by the benchmark state; times are left in milliseconds.
-/

namespace MarketBenchmark

/-! ## Summaries of a window -/

/-- `nearest_rank` of sorted values. -/
def nearestRank (sorted : List Nat) (percentile : Nat) : Option Nat :=
  sorted[max ((percentile * sorted.length + 99) / 100) 1 - 1]?

/-- The order statistics of `distribution`. -/
structure Distribution where
  p50 : Nat
  p95 : Nat
  p99 : Nat
  least : Nat
  greatest : Nat
  deriving DecidableEq, Repr

/-- Only the empty list has no distribution. -/
def distribution (values : List Nat) : Option Distribution :=
  let sorted := values.mergeSort
  match nearestRank sorted 50, nearestRank sorted 95, nearestRank sorted 99,
      sorted.head?, sorted.getLast? with
  | some p50, some p95, some p99, some least, some greatest =>
      some { p50, p95, p99, least, greatest }
  | _, _, _, _, _ => none

structure OutcomeCounts where
  complete : Nat := 0
  strictFastest : Provider → Nat := fun _ => 0
  tiedFastest : Provider → Nat := fun _ => 0
  ties : Nat := 0

/-- The least latency among the active providers. -/
def CommittedCohort.fastest (cohort : CommittedCohort) (providers : List Provider) : Nat :=
  ((providers.map cohort.latencyMs).min?).getD 0

def CommittedCohort.fastestProviders (cohort : CommittedCohort) (providers : List Provider) :
    List Provider :=
  providers.filter fun provider => cohort.latencyMs provider = cohort.fastest providers

/-- Count one cohort as a strict win or as a tie. -/
def OutcomeCounts.count (providers : List Provider) (counts : OutcomeCounts)
    (cohort : CommittedCohort) : OutcomeCounts :=
  let fastest := cohort.fastestProviders providers
  if fastest.length = 1 then
    { counts with
      complete := counts.complete + 1
      strictFastest := fun provider =>
        counts.strictFastest provider + if provider ∈ fastest then 1 else 0 }
  else
    { counts with
      complete := counts.complete + 1
      ties := counts.ties + 1
      tiedFastest := fun provider =>
        counts.tiedFastest provider + if provider ∈ fastest then 1 else 0 }

/-- The cohort is published by a publication at `now`. -/
def CommittedCohort.unreported (now : Nat) (cohort : CommittedCohort) : Bool :=
  !cohort.outcomeReported && decide (cohort.committedAt ≤ now)

def unreportedOutcomes (window : CoinWindow) (now : Nat) (providers : List Provider) :
    OutcomeCounts :=
  (window.cohorts.filter (CommittedCohort.unreported now)).foldl
    (OutcomeCounts.count providers) {}

def markOutcomesReported (window : CoinWindow) (through : Nat) : CoinWindow :=
  { window with
    cohorts := window.cohorts.map fun cohort =>
      if cohort.unreported through then { cohort with outcomeReported := true } else cohort }

/-- `(matched, missing, mismatch)` over the coverage ring. -/
def rollingCoverage (coverage : List CoverageCohort) (provider : Provider) : Nat × Nat × Nat :=
  coverage.foldl (fun counts cohort =>
    match cohort.outcomes provider with
    | .matched => (counts.1 + 1, counts.2.1, counts.2.2)
    | .missing => (counts.1, counts.2.1 + 1, counts.2.2)
    | .mismatch => (counts.1, counts.2.1 + 1, counts.2.2 + 1)) (0, 0, 0)

/-! ## Identities -/

def publicProvider : Provider → String
  | .foundationWs => "hyperliquid"
  | .hydromancerWs => "hydromancer"
  | .quickNodeGrpc => "quicknode"
  | .quickNodePeeringTcp => "quicknode"
  | .hydromancerPeeringTcp => "hydromancer"
  | .quickNodeVpc => "quicknode"

def publicSource : Provider → String
  | .foundationWs => "hyperliquid-ws"
  | .hydromancerWs => "hydromancer-ws"
  | .quickNodeGrpc => "quicknode-grpc"
  | .quickNodePeeringTcp => "quicknode-peering"
  | .hydromancerPeeringTcp => "hydromancer-peering"
  | .quickNodeVpc => "quicknode-vpc"

/-- The two QuickNode paths of a VPC box take different identities. -/
def eventIdProvider : Provider → String
  | .quickNodeVpc => publicSource .quickNodeVpc
  | other => publicProvider other

def windowId (config : BenchmarkConfig) (coin : String) (wallMs : Nat) : String :=
  config.runner ++ ":" ++ config.dataset.label ++ ":" ++ coin ++ ":" ++ toString wallMs

def outcomeIntervalId (config : BenchmarkConfig) (coin : String) (startMs wallMs : Nat) :
    String :=
  config.runId ++ ":" ++ config.runner ++ ":" ++ config.dataset.label ++ ":" ++ coin ++ ":" ++
    toString startMs ++ ":" ++ toString wallMs

def eventId (config : BenchmarkConfig) (coin : String) (wallMs : Nat) (provider : Provider) :
    String :=
  config.dataset.schema ++ ":" ++ config.runId ++ ":" ++ windowId config coin wallMs ++ ":" ++
    eventIdProvider provider

/-- The last multiple of the interval that is not after the wall time. -/
def alignedWindowEndMs (wallNowMs intervalMs : Nat) : Nat :=
  wallNowMs - wallNowMs % intervalMs

def streamMessageAgeMs (referenceWallMs messageWallMs : Nat) : Option Nat :=
  if 0 < messageWallMs then some (referenceWallMs - messageWallMs) else none

/-! ## Rows -/

structure LatencyWindowEvent where
  schema : String
  eventId : String
  windowId : String
  windowEndMs : Nat
  provider : String
  protocol : String
  source : String
  dataset : String
  coin : String
  runner : String
  runId : String
  runnerUptimeSeconds : Nat
  cohortComplete : Bool
  sampleCount : Nat
  ready : Bool
  readiness : String
  outcomeCountScope : String
  outcomeIntervalId : String
  outcomeIntervalStartMs : Nat
  outcomeIntervalEndMs : Nat
  outcomeIntervalDurationMs : Nat
  outcomeIntervalComplete : Bool
  outcomeCompleteCohortCount : Nat
  outcomeFoundationStrictFastestCount : Nat
  outcomeHydromancerStrictFastestCount : Nat
  outcomeQuicknodeStrictFastestCount : Nat
  outcomeQuicknodeVpcStrictFastestCount : Nat
  outcomeFoundationTiedFastestCount : Nat
  outcomeHydromancerTiedFastestCount : Nat
  outcomeQuicknodeTiedFastestCount : Nat
  outcomeQuicknodeVpcTiedFastestCount : Nat
  outcomeTieCount : Nat
  latency : Option Distribution
  latestMs : Option Nat
  latestEventMs : Option Nat
  commitDelayP99Ms : Option Nat
  counters : ProviderCounters
  matchedCount : Nat
  missingCount : Nat
  mismatchCount : Nat
  completeCohortCount : Nat
  pendingCohortCount : Nat
  stateEvictionCount : Nat
  rollingEvictionCount : Nat
  coverageEvictionCount : Nat
  queueDrops : Nat
  clock : ClockAssessment
  connectionState : String
  lastMessageAgeMs : Option Nat
  deriving DecidableEq, Repr

namespace Benchmark

/-- No bounded-state loss of the coin within the rolling window. -/
def stateIntegrityComplete (benchmark : Benchmark) (coin : String) (now : Nat) : Bool :=
  match (benchmark.windows coin).lastIntegrityLoss with
  | none => true
  | some lost => decide (benchmark.config.rollingWindow < now - lost)

def queueIntegrityComplete (config : BenchmarkConfig) (signals : RuntimeSignals)
    (coin : String) (wallNowMs : Nat) : Bool :=
  config.providers.all fun provider =>
    let droppedAt := (signals provider coin).lastQueueDropWallMs
    decide (droppedAt = 0 ∨
      (droppedAt ≤ wallNowMs ∧ asMillis config.rollingWindow < wallNowMs - droppedAt))

/-- The stream delivered a message no longer ago than `stale_after`. -/
def fresh (config : BenchmarkConfig) (stream : StreamSignalSnapshot) (wallNowMs : Nat) : Bool :=
  match streamMessageAgeMs wallNowMs stream.lastMessageWallMs with
  | none => false
  | some age => decide (age ≤ asMillis config.staleAfter)

def integrityComplete (benchmark : Benchmark) (coin : String) (now : Nat)
    (wallNowMs : Nat) (signals : RuntimeSignals) : Bool :=
  benchmark.stateIntegrityComplete coin now &&
    queueIntegrityComplete benchmark.config signals coin wallNowMs

def cohortConnectionsLive (config : BenchmarkConfig) (signals : RuntimeSignals)
    (coin : String) : Bool :=
  config.providers.all fun provider => (signals provider coin).connectionUp

def cohortMessagesFresh (config : BenchmarkConfig) (signals : RuntimeSignals)
    (coin : String) (wallNowMs : Nat) : Bool :=
  config.providers.all fun provider => fresh config (signals provider coin) wallNowMs

def cohortHealthComplete (benchmark : Benchmark) (coin : String) (now : Nat)
    (wallNowMs : Nat) (signals : RuntimeSignals) (clock : ClockAssessment) : Bool :=
  benchmark.integrityComplete coin now wallNowMs signals &&
    cohortConnectionsLive benchmark.config signals coin &&
    cohortMessagesFresh benchmark.config signals coin wallNowMs && clock.healthy

def outcomeScheduleComplete (benchmark : Benchmark) (wallMs : Nat) : Bool :=
  benchmark.outcomeHasPublished &&
    decide (wallMs - benchmark.outcomeCursorWallMs = asMillis benchmark.config.publishInterval)

/-- The row of one coin and active provider, at the aligned wall time `wallMs`. -/
def windowEvent (benchmark : Benchmark) (now : Nat) (wallNowMs wallMs : Nat)
    (signals : RuntimeSignals) (clock : ClockAssessment) (coin : String)
    (provider : Provider) : LatencyWindowEvent :=
  let config := benchmark.config
  let window := benchmark.windows coin
  let compared := config.hasProviderComparison
  let outcomes :=
    if compared then unreportedOutcomes window now config.providers else {}
  let stream := signals provider coin
  let integrityComplete := benchmark.integrityComplete coin now wallNowMs signals
  let connectionsLive := cohortConnectionsLive config signals coin
  let messagesFresh := cohortMessagesFresh config signals coin wallNowMs
  let healthComplete := benchmark.cohortHealthComplete coin now wallNowMs signals clock
  let sampleCount := window.cohorts.length
  let cohortComplete := healthComplete && decide (0 < sampleCount)
  let enoughSamples := decide (minReadySamples ≤ sampleCount)
  let latest := window.cohorts.getLast?
  let coverage := rollingCoverage window.coverage provider
  { schema := config.dataset.schema
    eventId := eventId config coin wallMs provider
    windowId := windowId config coin wallMs
    windowEndMs := wallMs
    provider := publicProvider provider
    protocol := provider.transport
    source := publicSource provider
    dataset := config.dataset.label
    coin := coin
    runner := config.runner
    runId := config.runId
    runnerUptimeSeconds := (now - benchmark.startedAt) / 1000000000
    cohortComplete := cohortComplete
    sampleCount := sampleCount
    ready := cohortComplete && enoughSamples
    readiness :=
      if !connectionsLive then "disconnected"
      else if !messagesFresh || !fresh config stream wallNowMs then "stale"
      else if !clock.healthy then clock.status
      else if !integrityComplete then "integrity-gap"
      else if !enoughSamples then "warming-up"
      else "ready"
    outcomeCountScope :=
      if compared then "non-overlapping-publication-interval" else "not-applicable"
    outcomeIntervalId := outcomeIntervalId config coin benchmark.outcomeCursorWallMs wallMs
    outcomeIntervalStartMs := benchmark.outcomeCursorWallMs
    outcomeIntervalEndMs := wallMs
    outcomeIntervalDurationMs := wallMs - benchmark.outcomeCursorWallMs
    outcomeIntervalComplete :=
      compared && benchmark.outcomeScheduleComplete wallMs && healthComplete
    outcomeCompleteCohortCount := outcomes.complete
    outcomeFoundationStrictFastestCount := outcomes.strictFastest .foundationWs
    outcomeHydromancerStrictFastestCount :=
      outcomes.strictFastest .hydromancerWs + outcomes.strictFastest .hydromancerPeeringTcp
    outcomeQuicknodeStrictFastestCount :=
      outcomes.strictFastest .quickNodeGrpc + outcomes.strictFastest .quickNodePeeringTcp
    outcomeQuicknodeVpcStrictFastestCount := outcomes.strictFastest .quickNodeVpc
    outcomeFoundationTiedFastestCount := outcomes.tiedFastest .foundationWs
    outcomeHydromancerTiedFastestCount :=
      outcomes.tiedFastest .hydromancerWs + outcomes.tiedFastest .hydromancerPeeringTcp
    outcomeQuicknodeTiedFastestCount :=
      outcomes.tiedFastest .quickNodeGrpc + outcomes.tiedFastest .quickNodePeeringTcp
    outcomeQuicknodeVpcTiedFastestCount := outcomes.tiedFastest .quickNodeVpc
    outcomeTieCount := outcomes.ties
    latency := distribution (window.cohorts.map fun cohort => cohort.latencyMs provider)
    latestMs := latest.map fun cohort => cohort.latencyMs provider
    latestEventMs := latest.map CommittedCohort.eventMs
    commitDelayP99Ms :=
      (distribution (window.cohorts.map CommittedCohort.commitDelayMs)).map Distribution.p99
    counters := benchmark.counters coin provider
    matchedCount := coverage.1
    missingCount := coverage.2.1
    mismatchCount := coverage.2.2
    completeCohortCount := window.completeCohorts
    pendingCohortCount :=
      ((benchmark.pending.entries.filter fun entry => entry.1.coin = coin).map fun entry =>
        entry.2.candidates.entries.length).sum
    stateEvictionCount := window.stateEvictions
    rollingEvictionCount := window.rollingEvictions
    coverageEvictionCount := window.coverageEvictions
    queueDrops := stream.queueDropped
    clock := clock
    connectionState := if stream.connectionUp then "connected" else "disconnected"
    lastMessageAgeMs := streamMessageAgeMs wallNowMs stream.lastMessageWallMs }

/-- `window_events`; undefined where the code divides by a zero interval. -/
def windowEvents (order : Foundation.HashMaps.IterationOrder) (benchmark : Benchmark)
    (now : Nat) (wallNowMs : Nat) (signals : RuntimeSignals)
    (clock : ClockHealthSnapshot) : Option (Benchmark × List LatencyWindowEvent) :=
  let intervalMs := asMillis benchmark.config.publishInterval
  if intervalMs = 0 then none
  else
    let benchmark :=
      Benchmark.tick order { benchmark with preparedOutcomeInterval := none } now
    let wallMs := alignedWindowEndMs wallNowMs intervalMs
    if wallMs ≤ benchmark.outcomeCursorWallMs ∨ now ≤ benchmark.outcomeCursor then
      some (benchmark, [])
    else
      let events := benchmark.config.coins.flatMap fun coin =>
        benchmark.config.providers.map fun provider =>
          benchmark.windowEvent now wallNowMs wallMs signals (clock.assess wallNowMs) coin provider
      some ({ benchmark with
        preparedOutcomeInterval := some { stop := now, stopWallMs := wallMs } }, events)

def commitPreparedPublication (benchmark : Benchmark) : Benchmark × Bool :=
  match benchmark.preparedOutcomeInterval with
  | none => (benchmark, false)
  | some prepared =>
      let benchmark := { benchmark with preparedOutcomeInterval := none }
      if prepared.stopWallMs ≤ benchmark.outcomeCursorWallMs ∨
          prepared.stop ≤ benchmark.outcomeCursor then (benchmark, false)
      else
        ({ benchmark with
          windows := fun coin => markOutcomesReported (benchmark.windows coin) prepared.stop
          outcomeCursor := prepared.stop
          outcomeCursorWallMs := prepared.stopWallMs
          outcomeHasPublished := true }, true)

def rejectPreparedPublication (benchmark : Benchmark) : Benchmark :=
  { benchmark with preparedOutcomeInterval := none }

end Benchmark

end MarketBenchmark
