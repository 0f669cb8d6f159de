import MarketBenchmark.Benchmark.Config
import MarketBenchmark.Foundation.HashMaps
import MarketBenchmark.Foundation.TimedRing

/-!
# Benchmark state

Pending bases collect arrivals, settled keys are tombstones, and each coin owns
two rings and the run-lifetime counters.  The maps keyed by coin are total:
only configured coins are ever read or written.

`CommittedCohort.origin`, `CommittedCohort.serial`, `CoverageCohort.origin` and
`CoinWindow.losses` are auxiliary.  The code forgets under which key, and as
which of the coin's complete cohorts, an entry was settled, and it keeps only
the last instant at which a loss was stamped; the model keeps them all so that
entries and losses can be told apart.  No transition reads them.
-/

namespace MarketBenchmark

open Foundation.HashMaps

@[ext]
structure ProviderCounters where
  observed : Nat := 0
  matched : Nat := 0
  missing : Nat := 0
  mismatch : Nat := 0
  duplicate : Nat := 0
  late : Nat := 0
  orphaned : Nat := 0
  negativeLatency : Nat := 0
  futureTimestamp : Nat := 0
  signatureOverflow : Nat := 0
  reconnects : Nat := 0
  sequenceGaps : Nat := 0
  replayCount : Nat := 0
  replayGaps : Nat := 0
  deriving DecidableEq, Repr

namespace ProviderCounters

/-- Counters are advanced by adding increments, field by field. -/
instance : Add ProviderCounters where
  add first second :=
    { observed := first.observed + second.observed
      matched := first.matched + second.matched
      missing := first.missing + second.missing
      mismatch := first.mismatch + second.mismatch
      duplicate := first.duplicate + second.duplicate
      late := first.late + second.late
      orphaned := first.orphaned + second.orphaned
      negativeLatency := first.negativeLatency + second.negativeLatency
      futureTimestamp := first.futureTimestamp + second.futureTimestamp
      signatureOverflow := first.signatureOverflow + second.signatureOverflow
      reconnects := first.reconnects + second.reconnects
      sequenceGaps := first.sequenceGaps + second.sequenceGaps
      replayCount := first.replayCount + second.replayCount
      replayGaps := first.replayGaps + second.replayGaps }

instance : Zero ProviderCounters where
  zero := {}

theorem add_def (first second : ProviderCounters) :
    first + second =
      { observed := first.observed + second.observed
        matched := first.matched + second.matched
        missing := first.missing + second.missing
        mismatch := first.mismatch + second.mismatch
        duplicate := first.duplicate + second.duplicate
        late := first.late + second.late
        orphaned := first.orphaned + second.orphaned
        negativeLatency := first.negativeLatency + second.negativeLatency
        futureTimestamp := first.futureTimestamp + second.futureTimestamp
        signatureOverflow := first.signatureOverflow + second.signatureOverflow
        reconnects := first.reconnects + second.reconnects
        sequenceGaps := first.sequenceGaps + second.sequenceGaps
        replayCount := first.replayCount + second.replayCount
        replayGaps := first.replayGaps + second.replayGaps } := rfl

theorem zero_def : (0 : ProviderCounters) = {} := rfl

instance : AddCommMonoid ProviderCounters where
  add_assoc first second third := by simp only [add_def, Nat.add_assoc]
  zero_add counters := by simp only [add_def, zero_def, Nat.zero_add]
  add_zero counters := by simp only [add_def, zero_def, Nat.add_zero]
  add_comm first second := by simp only [add_def, Nat.add_comm]
  nsmul := nsmulRec

end ProviderCounters

structure Observation where
  received : Nat
  receivedWallMs : Nat
  deriving DecidableEq, Repr

structure PendingCandidate where
  firstObserved : Nat
  arrivals : Provider → Option Observation

def PendingCandidate.new (firstObserved : Nat) : PendingCandidate where
  firstObserved := firstObserved
  arrivals := fun _ => none

structure PendingBase where
  firstObserved : Nat
  candidates : HashMap ContentKey PendingCandidate

def PendingBase.new (firstObserved : Nat) : PendingBase where
  firstObserved := firstObserved
  candidates := ∅

/-- Bit `provider.index()` of `matched_mask` is `matchedMask provider`. -/
structure SettledCohort where
  settledAt : Nat
  matchedMask : Provider → Bool

structure CommittedCohort where
  committedAt : Nat
  eventMs : Nat
  latencyMs : Provider → Nat
  commitDelayMs : Nat
  outcomeReported : Bool
  origin : EventKey
  serial : Nat

inductive CoverageOutcome where
  | matched
  | missing
  | mismatch
  deriving DecidableEq, Repr

structure CoverageCohort where
  settledAt : Nat
  outcomes : Provider → CoverageOutcome
  origin : EventKey

structure CoinWindow where
  cohorts : List CommittedCohort := []
  coverage : List CoverageCohort := []
  completeCohorts : Nat := 0
  stateEvictions : Nat := 0
  rollingEvictions : Nat := 0
  coverageEvictions : Nat := 0
  lastIntegrityLoss : Option Nat := none
  losses : List Nat := []

structure PreparedOutcomeInterval where
  stop : Nat
  stopWallMs : Nat
  deriving DecidableEq, Repr

structure Benchmark where
  config : BenchmarkConfig
  startedAt : Nat
  outcomeCursor : Nat
  outcomeCursorWallMs : Nat
  outcomeHasPublished : Bool
  preparedOutcomeInterval : Option PreparedOutcomeInterval
  pending : HashMap BaseKey PendingBase
  settledBases : HashMap BaseKey Nat
  settled : HashMap EventKey SettledCohort
  counters : String → Provider → ProviderCounters
  windows : String → CoinWindow

/-- `Benchmark::new`; `wallNow` is `system_time_ms(wall_now)`. -/
def Benchmark.new (config : BenchmarkConfig) (now : Nat) (wallNow : Nat) : Benchmark where
  config := config
  startedAt := now
  outcomeCursor := now
  outcomeCursorWallMs := wallNow
  outcomeHasPublished := false
  preparedOutcomeInterval := none
  pending := ∅
  settledBases := ∅
  settled := ∅
  counters := fun _ _ => {}
  windows := fun _ => {}

end MarketBenchmark
