import MarketBenchmark.Benchmark.Calls

/-!
# What the caps push out

Each place of the code that gives up an entry because a container is full, or
refuses an event, is a loss: the entry, and the instant that is stamped on its
coin.  The functions ending in `Losses` list the losses of a call in the order
in which the code suffers them.  The rest of the file relates the list to the
state: `Counted` says that counters and stamps moved by exactly the list, and
`Retained` that nothing else left a container, but for entries that aged out
or whose base was settled in time.
-/

namespace MarketBenchmark

open Foundation.HashMaps
open Foundation.TimedRing

/-- An entry that a cap pushed out, or an event that was refused. -/
inductive Lost where
  | pendingBase (base : BaseKey)
  | settledBase (base : BaseKey)
  | settled (key : EventKey)
  | cohort (coin : String) (entry : CommittedCohort)
  | coverage (coin : String) (entry : CoverageCohort)
  | candidate (key : EventKey) (provider : Provider)
  | timestamp (key : EventKey)

/-- The counters that tell about caps. -/
inductive Tally where
  | stateEvictions
  | rollingEvictions
  | coverageEvictions
  | signatureOverflow (provider : Provider)
  deriving DecidableEq

namespace Lost

def coin : Lost → String
  | pendingBase base => base.coin
  | settledBase base => base.coin
  | settled key => key.coin
  | cohort coin _ => coin
  | coverage coin _ => coin
  | candidate key _ => key.coin
  | timestamp key => key.coin

/-- The counter that tells about the loss; a refused timestamp hits no cap. -/
def tally : Lost → Option Tally
  | pendingBase _ => some .stateEvictions
  | settledBase _ => some .stateEvictions
  | settled _ => some .stateEvictions
  | cohort _ _ => some .rollingEvictions
  | coverage _ _ => some .coverageEvictions
  | candidate _ provider => some (.signatureOverflow provider)
  | timestamp _ => none

end Lost

structure Loss where
  lost : Lost
  stamp : Nat

namespace Loss

/-- The loss is told by this counter of this coin. -/
def counts (loss : Loss) (coin : String) (tally : Tally) : Bool :=
  decide (loss.lost.coin = coin) && decide (loss.lost.tally = some tally)

/-- The instants stamped on a coin, in their order. -/
def stamps (coin : String) (losses : List Loss) : List Nat :=
  (losses.filter fun loss => decide (loss.lost.coin = coin)).map stamp

/-- The cohort that the loss took from the ring of a coin. -/
def droppedCohort (coin : String) (loss : Loss) : Option CommittedCohort :=
  match loss.lost with
  | .cohort other entry => if other = coin then some entry else none
  | _ => none

/-- The coverage entry that the loss took from the ring of a coin. -/
def droppedCoverage (coin : String) (loss : Loss) : Option CoverageCohort :=
  match loss.lost with
  | .coverage other entry => if other = coin then some entry else none
  | _ => none

end Loss

/-- Read the counter of a coin. -/
def Tally.read (benchmark : Benchmark) (coin : String) : Tally → Nat
  | stateEvictions => (benchmark.windows coin).stateEvictions
  | rollingEvictions => (benchmark.windows coin).rollingEvictions
  | coverageEvictions => (benchmark.windows coin).coverageEvictions
  | signatureOverflow provider => (benchmark.counters coin provider).signatureOverflow

namespace Benchmark

variable (order : IterationOrder) (benchmark : Benchmark)

/-! ## The losses of each function -/

def insertSettledBaseLosses (settledAt : Nat) : List Loss :=
  if benchmark.config.maxSettled ≤ benchmark.settledBases.entries.length then
    match HashMap.oldest order (fun timestamp => timestamp) benchmark.settledBases with
    | none => []
    | some oldest => [⟨.settledBase oldest, settledAt⟩]
  else []

def insertSettledLosses (settledAt : Nat) : List Loss :=
  if benchmark.config.maxSettled ≤ benchmark.settled.entries.length then
    match HashMap.oldest order SettledCohort.settledAt benchmark.settled with
    | none => []
    | some oldest => [⟨.settled oldest, settledAt⟩]
  else []

/-- The ring of coverage entries overflows, then the ring of cohorts, then the
map of settled keys. -/
def finalizeCandidateLosses (key : EventKey) (candidate : PendingCandidate) (now : Nat)
    (noncanonicalSeen : Provider → Bool) : List Loss :=
  let config := benchmark.config
  let window := benchmark.windows key.coin
  let coverage := (overflow CoverageCohort.settledAt config.maxRollingCohorts window.coverage
    (coverageEntry config key candidate now noncanonicalSeen)).toList
  let cohorts :=
    if candidate.complete config.providers then
      (overflow CommittedCohort.committedAt config.maxRollingCohorts window.cohorts
        (cohortEntry config key candidate (window.completeCohorts + 1))).toList
    else []
  coverage.map (fun entry => ⟨.coverage key.coin entry, now⟩) ++
    cohorts.map (fun entry => ⟨.cohort key.coin entry, now⟩) ++
    benchmark.insertSettledLosses order (sampleStamp config candidate now)

/-- The losses of a loop, from its first item to its last. -/
def loopLosses {Item : Type} (next : Benchmark → Item → Benchmark)
    (losses : Benchmark → Item → List Loss) : Benchmark → List Item → List Loss
  | _, [] => []
  | benchmark, item :: rest =>
      losses benchmark item ++ loopLosses next losses (next benchmark item) rest

def settleLosses (key : BaseKey) (now : Nat) (evicted : Bool) : List Loss :=
  match benchmark.pending.lookup key with
  | none => []
  | some pending =>
      let seen := noncanonicalSeen benchmark.config (admitted order benchmark.config pending)
      benchmark.insertSettledBaseLosses order now ++
        (if evicted then [⟨.pendingBase key, now⟩] else []) ++
        loopLosses
          (fun state entry =>
            state.finalizeCandidate order (eventKey key entry.1) entry.2 now seen)
          (fun state entry =>
            state.finalizeCandidateLosses order (eventKey key entry.1) entry.2 now seen)
          (benchmark.sealBase order key pending now evicted)
          (canonical order benchmark.config pending)

def tickLosses (now : Nat) : List Loss :=
  loopLosses (fun state key => state.settle order key now false)
    (fun state key => state.settleLosses order key now false) benchmark
    (benchmark.expired order now)

def sealOverdueLosses (base : BaseKey) (received : Nat) : List Loss :=
  match benchmark.pending.lookup base with
  | none => []
  | some pending =>
      if benchmark.config.cohortTimeout ≤ received - pending.firstObserved then
        benchmark.settleLosses order base received false
      else []

def makeRoomLosses (base : BaseKey) (received : Nat) : List Loss :=
  if base ∉ benchmark.pending ∧
      benchmark.config.maxPending ≤ benchmark.pending.entries.length then
    match HashMap.oldest order PendingBase.firstObserved benchmark.pending with
    | none => []
    | some oldest => benchmark.settleLosses order oldest received true
  else []

def storeLosses (event : MarketEvent) : List Loss :=
  if benchmark.Overflowing event then [⟨.candidate event.key event.provider, event.received⟩]
  else if (benchmark.openedCandidate event).hasArrival event.provider then []
  else if benchmark.config.providers.length = 1 then
    (benchmark.withPending event.key.base (benchmark.heldBase event
      (withArrival (benchmark.openedCandidate event) event))).settleLosses order event.key.base
        event.received false
  else []

def recordAcceptedLosses (event : MarketEvent) : List Loss :=
  let base := event.key.base
  let benchmark := benchmark.bump event.key.coin event.provider { observed := 1 }
  let overdue := benchmark.sealOverdueLosses order base event.received
  let benchmark := benchmark.sealOverdue order base event.received
  if base ∈ benchmark.settledBases then overdue
  else
    overdue ++ benchmark.makeRoomLosses order base event.received ++
      (benchmark.makeRoom order base event.received).storeLosses order event

def recordMarketLosses (event : MarketEvent) : List Loss :=
  if event.provider ∉ benchmark.config.providers then []
  else if event.key.eventMs = 0 ∨ event.receivedWallMs < event.key.eventMs then
    [⟨.timestamp event.key, event.received⟩]
  else benchmark.recordAcceptedLosses order event

def recordLosses : ProbeEvent → List Loss
  | .market event => benchmark.recordMarketLosses order event
  | _ => []

/-- The losses of recording an event and of a tick. -/
def losses (benchmark : Benchmark) : Call → List Loss
  | .record order event => benchmark.recordLosses order event
  | .tick order now => benchmark.tickLosses order now
  | _ => []

end Benchmark

/-! ## Counters and stamps -/

/-- Every loss advanced its counter by one and stamped its coin; nothing else
moved the counters that tell about caps, or the stamps. -/
structure Counted (losses : List Loss) (before after : Benchmark) : Prop where
  tallies : ∀ coin tally, Tally.read after coin tally =
    Tally.read before coin tally + losses.countP fun loss => loss.counts coin tally
  logged : ∀ coin, (after.windows coin).losses =
    (Loss.stamps coin losses).reverse ++ (before.windows coin).losses
  last : ∀ coin, (after.windows coin).lastIntegrityLoss =
    (Loss.stamps coin losses).getLast?.or (before.windows coin).lastIntegrityLoss

namespace Loss

theorem stamps_append (coin : String) (first second : List Loss) :
    stamps coin (first ++ second) = stamps coin first ++ stamps coin second := by
  unfold stamps
  rw [List.filter_append, List.map_append]

theorem stamps_singleton (coin : String) (loss : Loss) :
    stamps coin [loss] = if loss.lost.coin = coin then [loss.stamp] else [] := by
  unfold stamps
  rw [List.filter_singleton]
  by_cases same : loss.lost.coin = coin
  · rw [if_pos same, decide_eq_true same]
    rfl
  · rw [if_neg same, decide_eq_false same]
    rfl

end Loss

namespace Counted

variable {first second third : Benchmark} {losses early late : List Loss}

/-- A change that leaves the windows and the overflow counters alone. -/
theorem of_same (windows : second.windows = first.windows)
    (overflow : ∀ coin provider, (second.counters coin provider).signatureOverflow =
      (first.counters coin provider).signatureOverflow) : Counted [] first second where
  tallies coin tally := by
    cases tally with
    | stateEvictions => exact congrArg (fun all => (all coin).stateEvictions) windows
    | rollingEvictions => exact congrArg (fun all => (all coin).rollingEvictions) windows
    | coverageEvictions => exact congrArg (fun all => (all coin).coverageEvictions) windows
    | signatureOverflow provider => exact overflow coin provider
  logged coin := congrArg (fun all => (all coin).losses) windows
  last coin := congrArg (fun all => (all coin).lastIntegrityLoss) windows

theorem refl (benchmark : Benchmark) : Counted [] benchmark benchmark :=
  of_same rfl fun _ _ => rfl

theorem trans (left : Counted early first second) (right : Counted late second third) :
    Counted (early ++ late) first third where
  tallies coin tally := by
    rw [right.tallies, left.tallies, List.countP_append, Nat.add_assoc]
  logged coin := by
    rw [right.logged, left.logged, Loss.stamps_append, List.reverse_append, List.append_assoc]
  last coin := by
    rw [right.last, left.last, Loss.stamps_append, List.getLast?_append, Option.or_assoc]

/-- A further change that leaves the windows and the overflow counters alone. -/
theorem trans_same (counted : Counted early first second)
    (windows : third.windows = second.windows)
    (overflow : ∀ coin provider, (third.counters coin provider).signatureOverflow =
      (second.counters coin provider).signatureOverflow) : Counted early first third := by
  have both := counted.trans (of_same windows overflow)
  rw [List.append_nil] at both
  exact both

/-- A change that stamps one coin and advances at most one of its counters. -/
theorem single (loss : Loss)
    (tallies : ∀ coin tally, Tally.read second coin tally =
      Tally.read first coin tally + if loss.counts coin tally then 1 else 0)
    (stamped : ∀ coin, (second.windows coin).losses =
        if loss.lost.coin = coin then loss.stamp :: (first.windows coin).losses
        else (first.windows coin).losses)
    (last : ∀ coin, (second.windows coin).lastIntegrityLoss =
        if loss.lost.coin = coin then some loss.stamp
        else (first.windows coin).lastIntegrityLoss) : Counted [loss] first second where
  tallies coin tally := by
    rw [tallies, List.countP_singleton]
  logged coin := by
    rw [stamped, Loss.stamps_singleton]
    split <;> rfl
  last coin := by
    rw [last, Loss.stamps_singleton]
    split <;> rfl

end Counted

namespace CoinWindow

/-- `Counted`, seen in the window of the coin that suffered all the losses. -/
structure Told (losses : List Loss) (before after : CoinWindow) : Prop where
  state : after.stateEvictions = before.stateEvictions +
    losses.countP fun loss => decide (loss.lost.tally = some .stateEvictions)
  rolling : after.rollingEvictions = before.rollingEvictions +
    losses.countP fun loss => decide (loss.lost.tally = some .rollingEvictions)
  coverage : after.coverageEvictions = before.coverageEvictions +
    losses.countP fun loss => decide (loss.lost.tally = some .coverageEvictions)
  logged : after.losses = (losses.map Loss.stamp).reverse ++ before.losses
  last : after.lastIntegrityLoss =
    (losses.map Loss.stamp).getLast?.or before.lastIntegrityLoss

variable {first second third : CoinWindow} {early late : List Loss}

theorem Told.trans (left : Told early first second) (right : Told late second third) :
    Told (early ++ late) first third where
  state := by rw [right.state, left.state, List.countP_append, Nat.add_assoc]
  rolling := by rw [right.rolling, left.rolling, List.countP_append, Nat.add_assoc]
  coverage := by rw [right.coverage, left.coverage, List.countP_append, Nat.add_assoc]
  logged := by
    rw [right.logged, left.logged, List.map_append, List.reverse_append, List.append_assoc]
  last := by
    rw [right.last, left.last, List.map_append, List.getLast?_append, Option.or_assoc]

theorem told_evictState (window : CoinWindow) {loss : Loss}
    (tally : loss.lost.tally = some .stateEvictions) :
    Told [loss] window (window.evictState loss.stamp) := by
  constructor
  all_goals first | rfl | (rw [List.countP_singleton, tally]; rfl)

theorem told_markIntegrityLoss (window : CoinWindow) {loss : Loss}
    (tally : loss.lost.tally = none) :
    Told [loss] window (window.markIntegrityLoss loss.stamp) := by
  constructor
  all_goals first | rfl | (rw [List.countP_singleton, tally]; rfl)

/-- A ring of coverage entries that overflows loses what it drops. -/
theorem told_insertCoverage (window : CoinWindow) (coin : String) (cap now : Nat)
    (entry : CoverageCohort) :
    Told ((overflow CoverageCohort.settledAt cap window.coverage entry).toList.map fun dropped =>
      ⟨.coverage coin dropped, now⟩) window (window.insertCoverage cap now entry) := by
  unfold overflow insertCoverage
  dsimp only
  split
  · next full =>
      cases inserted : insertInOrder CoverageCohort.settledAt window.coverage entry with
      | nil =>
          rw [inserted] at full
          cases full
      | cons dropped rest => constructor <;> rfl
  · constructor <;> rfl

/-- A ring of cohorts that overflows loses what it drops. -/
theorem told_insertCohort (window : CoinWindow) (coin : String) (cap now : Nat)
    (entry : CommittedCohort) :
    Told ((overflow CommittedCohort.committedAt cap window.cohorts entry).toList.map fun dropped =>
      ⟨.cohort coin dropped, now⟩) window (window.insertCohort cap now entry) := by
  unfold overflow insertCohort
  dsimp only
  split
  · next full =>
      cases inserted : insertInOrder CommittedCohort.committedAt window.cohorts entry with
      | nil =>
          rw [inserted] at full
          cases full
      | cons dropped rest => constructor <;> rfl
  · constructor <;> rfl

end CoinWindow

namespace Benchmark

variable (order : IterationOrder) (benchmark : Benchmark)

/-- A change of one window tells about losses of its coin. -/
theorem counted_updateWindow {losses : List Loss} {coin : String}
    {change : CoinWindow → CoinWindow}
    (told : CoinWindow.Told losses (benchmark.windows coin) (change (benchmark.windows coin)))
    (own : ∀ loss ∈ losses, loss.lost.coin = coin)
    (evictions : ∀ loss ∈ losses, ∀ provider,
      loss.lost.tally ≠ some (.signatureOverflow provider)) :
    Counted losses benchmark (benchmark.updateWindow coin change) := by
  have changed : (benchmark.updateWindow coin change).windows coin =
      change (benchmark.windows coin) := by
    rw [updateWindow_windows, if_pos rfl]
  have others : ∀ other, other ≠ coin →
      (benchmark.updateWindow coin change).windows other = benchmark.windows other :=
    fun other different => by rw [updateWindow_windows, if_neg different]
  have ownCounts : ∀ tally, (losses.countP fun loss => loss.counts coin tally) =
      losses.countP fun loss => decide (loss.lost.tally = some tally) := by
    intro tally
    refine List.countP_congr fun loss member => ?_
    unfold Loss.counts
    rw [decide_eq_true (own loss member), Bool.true_and]
  have ownStamps : Loss.stamps coin losses = losses.map Loss.stamp := by
    unfold Loss.stamps
    rw [List.filter_eq_self.mpr fun loss member => decide_eq_true (own loss member)]
  have noCounts : ∀ other tally, other ≠ coin →
      (losses.countP fun loss => loss.counts other tally) = 0 := by
    intro other tally different
    refine List.countP_eq_zero.mpr fun loss member counted => different ?_
    rw [← own loss member]
    exact (of_decide_eq_true (Bool.and_eq_true_iff.mp counted).1).symm
  have noStamps : ∀ other, other ≠ coin → Loss.stamps other losses = [] := by
    intro other different
    unfold Loss.stamps
    rw [List.filter_eq_nil_iff.mpr, List.map_nil]
    intro loss member same
    exact different ((of_decide_eq_true same).symm.trans (own loss member))
  constructor
  · intro other tally
    by_cases same : other = coin
    · subst same
      rw [ownCounts]
      cases tally with
      | stateEvictions => exact (congrArg CoinWindow.stateEvictions changed).trans told.state
      | rollingEvictions => exact (congrArg CoinWindow.rollingEvictions changed).trans told.rolling
      | coverageEvictions =>
          exact (congrArg CoinWindow.coverageEvictions changed).trans told.coverage
      | signatureOverflow provider =>
          rw [List.countP_eq_zero.mpr fun loss member counted =>
            evictions loss member provider (of_decide_eq_true counted)]
          rfl
    · rw [noCounts other tally same]
      cases tally with
      | stateEvictions => exact congrArg CoinWindow.stateEvictions (others other same)
      | rollingEvictions => exact congrArg CoinWindow.rollingEvictions (others other same)
      | coverageEvictions => exact congrArg CoinWindow.coverageEvictions (others other same)
      | signatureOverflow provider => rfl
  · intro other
    by_cases same : other = coin
    · subst same
      rw [changed, ownStamps, told.logged]
    · rw [others other same, noStamps other same]
      rfl
  · intro other
    by_cases same : other = coin
    · subst same
      rw [changed, ownStamps, told.last]
    · rw [others other same, noStamps other same]
      rfl

/-- An eviction outside the rings. -/
theorem counted_evictState (lost : Lost) (stamp : Nat)
    (tally : lost.tally = some .stateEvictions) :
    Counted [⟨lost, stamp⟩] benchmark
      (benchmark.updateWindow lost.coin fun window => window.evictState stamp) := by
  have told : CoinWindow.Told [⟨lost, stamp⟩] (benchmark.windows lost.coin)
      ((benchmark.windows lost.coin).evictState stamp) :=
    CoinWindow.told_evictState (benchmark.windows lost.coin) tally
  refine counted_updateWindow benchmark told (List.forall_mem_singleton.mpr rfl)
    (List.forall_mem_singleton.mpr fun provider overflow => ?_)
  cases tally.symm.trans overflow

theorem counted_insertSettledBase (key : BaseKey) (settledAt : Nat) :
    Counted (benchmark.insertSettledBaseLosses order settledAt) benchmark
      (benchmark.insertSettledBase order key settledAt) := by
  unfold insertSettledBaseLosses insertSettledBase
  by_cases full : benchmark.config.maxSettled ≤ benchmark.settledBases.entries.length
  · rw [if_pos full, if_pos full]
    cases HashMap.oldest order (fun timestamp => timestamp) benchmark.settledBases with
    | none => exact Counted.of_same rfl fun _ _ => rfl
    | some oldest =>
        have evicted := counted_evictState benchmark (.settledBase oldest) settledAt rfl
        exact ⟨evicted.tallies, evicted.logged, evicted.last⟩
  · rw [if_neg full, if_neg full]
    exact Counted.of_same rfl fun _ _ => rfl

theorem counted_insertSettled (key : EventKey) (settled : SettledCohort) :
    Counted (benchmark.insertSettledLosses order settled.settledAt) benchmark
      (benchmark.insertSettled order key settled) := by
  unfold insertSettledLosses insertSettled
  by_cases full : benchmark.config.maxSettled ≤ benchmark.settled.entries.length
  · rw [if_pos full, if_pos full]
    cases HashMap.oldest order SettledCohort.settledAt benchmark.settled with
    | none => exact Counted.of_same rfl fun _ _ => rfl
    | some oldest =>
        have evicted := counted_evictState benchmark (.settled oldest) settled.settledAt rfl
        exact ⟨evicted.tallies, evicted.logged, evicted.last⟩
  · rw [if_neg full, if_neg full]
    exact Counted.of_same rfl fun _ _ => rfl

section Sampling

variable (key : EventKey) (candidate : PendingCandidate) (now : Nat) (seen : Provider → Bool)

/-- What the rings of a coin drop when a candidate is sampled. -/
def sampleLosses (config : BenchmarkConfig) (window : CoinWindow) : List Loss :=
  (overflow CoverageCohort.settledAt config.maxRollingCohorts window.coverage
      (coverageEntry config key candidate now seen)).toList.map
      (fun entry => ⟨.coverage key.coin entry, now⟩) ++
    (if candidate.complete config.providers then
      (overflow CommittedCohort.committedAt config.maxRollingCohorts window.cohorts
        (cohortEntry config key candidate (window.completeCohorts + 1))).toList
    else []).map fun entry => ⟨.cohort key.coin entry, now⟩

theorem finalizeCandidateLosses_eq :
    benchmark.finalizeCandidateLosses order key candidate now seen =
      sampleLosses key candidate now seen benchmark.config (benchmark.windows key.coin) ++
        benchmark.insertSettledLosses order (sampleStamp benchmark.config candidate now) := rfl

theorem mem_sampleLosses {config : BenchmarkConfig} {window : CoinWindow} {loss : Loss}
    (member : loss ∈ sampleLosses key candidate now seen config window) :
    loss.stamp = now ∧ ((∃ entry, loss.lost = .coverage key.coin entry) ∨
      ∃ entry, loss.lost = .cohort key.coin entry) := by
  rcases List.mem_append.mp member with dropped | dropped
  · obtain ⟨entry, _, same⟩ := List.mem_map.mp dropped
    rw [← same]
    exact ⟨rfl, Or.inl ⟨entry, rfl⟩⟩
  · obtain ⟨entry, _, same⟩ := List.mem_map.mp dropped
    rw [← same]
    exact ⟨rfl, Or.inr ⟨entry, rfl⟩⟩

theorem told_sampleWindow (config : BenchmarkConfig) (window : CoinWindow) :
    CoinWindow.Told (sampleLosses key candidate now seen config window) window
      (sampleWindow config key candidate now seen window) := by
  have covered := CoinWindow.told_insertCoverage window key.coin config.maxRollingCohorts now
    (coverageEntry config key candidate now seen)
  unfold sampleWindow sampleLosses
  dsimp only
  split
  · refine covered.trans ?_
    have committed := CoinWindow.told_insertCohort
      (window.insertCoverage config.maxRollingCohorts now
        (coverageEntry config key candidate now seen)) key.coin config.maxRollingCohorts now
      (cohortEntry config key candidate (window.completeCohorts + 1))
    rw [CoinWindow.insertCoverage_cohorts] at committed
    rw [CoinWindow.insertCoverage_completeCohorts]
    exact committed
  · rw [List.map_nil, List.append_nil]
    exact covered

theorem counted_sampleWindow :
    Counted (sampleLosses key candidate now seen benchmark.config (benchmark.windows key.coin))
      benchmark
      (benchmark.updateWindow key.coin (sampleWindow benchmark.config key candidate now seen)) := by
  refine counted_updateWindow benchmark
    (told_sampleWindow key candidate now seen benchmark.config (benchmark.windows key.coin)) ?_ ?_
  · intro loss member
    rcases (mem_sampleLosses key candidate now seen member).2 with ⟨entry, same⟩ | ⟨entry, same⟩
    · rw [same]
      rfl
    · rw [same]
      rfl
  · intro loss member provider overflow
    rcases (mem_sampleLosses key candidate now seen member).2 with ⟨entry, same⟩ | ⟨entry, same⟩
    · rw [same] at overflow
      cases overflow
    · rw [same] at overflow
      cases overflow

theorem counted_finalizeCandidate :
    Counted (benchmark.finalizeCandidateLosses order key candidate now seen) benchmark
      (benchmark.finalizeCandidate order key candidate now seen) := by
  rw [finalizeCandidate_eq, finalizeCandidateLosses_eq]
  generalize counters : benchmark.config.providers.foldl (fun counters provider =>
    CounterTable.bump counters key.coin provider (outcomeOf candidate seen provider).increment)
    benchmark.counters = table
  have counted : Counted [] benchmark { benchmark with counters := table } := by
    refine Counted.of_same rfl fun coin provider => ?_
    rw [← counters]
    dsimp only
    rw [CounterTable.foldl_bump_apply
      (fun provider => (outcomeOf candidate seen provider).increment) key.coin
      benchmark.config.providers_nodup]
    split
    · cases outcomeOf candidate seen provider <;> rfl
    · rfl
  have sampled := counted_sampleWindow { benchmark with counters := table } key candidate now seen
  have settled := counted_insertSettled order
    ({ benchmark with counters := table }.updateWindow key.coin
      (sampleWindow benchmark.config key candidate now seen)) key
    { settledAt := sampleStamp benchmark.config candidate now
      matchedMask := fun provider =>
        decide (provider ∈ benchmark.config.providers) && candidate.hasArrival provider }
  exact (counted.trans sampled).trans settled

end Sampling

/-- Counting arrivals with an increment that refuses nothing refuses nothing. -/
theorem signatureOverflow_countArrivals (counters : CounterTable) (coin : String)
    (providers : List Provider) (candidates : List PendingCandidate)
    (test : PendingCandidate → Provider → Bool) {increment : ProviderCounters}
    (none : increment.signatureOverflow = 0) (other : String) (provider : Provider) :
    (counters.countArrivals coin providers candidates test increment other
      provider).signatureOverflow = (counters other provider).signatureOverflow := by
  unfold CounterTable.countArrivals
  let Same : CounterTable → Prop := fun table =>
    (table other provider).signatureOverflow = (counters other provider).signatureOverflow
  refine List.foldlRecOn (motive := Same) candidates _ rfl fun table held candidate _ => ?_
  refine List.foldlRecOn (motive := Same) providers _ held fun inner same counted _ => ?_
  split
  · have added := congrArg ProviderCounters.signatureOverflow
      (CounterTable.bump_apply inner coin counted increment other provider)
    refine (added.trans ?_).trans same
    split
    · exact congrArg (fun more => (inner other provider).signatureOverflow + more) none
    · rfl
  · exact same

/-- A loop tells about the losses of its items. -/
theorem counted_loop {Item : Type} (next : Benchmark → Item → Benchmark)
    (losses : Benchmark → Item → List Loss)
    (counted : ∀ state item, Counted (losses state item) state (next state item))
    (items : List Item) : Counted (loopLosses next losses benchmark items) benchmark
      (items.foldl next benchmark) := by
  induction items generalizing benchmark with
  | nil => exact Counted.refl benchmark
  | cons item rest ih => exact (counted benchmark item).trans (ih (next benchmark item))

/-- Sealing a base tells about the tombstone it pushed out, and about the base if evicted. -/
theorem counted_sealBase (key : BaseKey) (pending : PendingBase) (now : Nat) (evicted : Bool) :
    Counted (benchmark.insertSettledBaseLosses order now ++
        if evicted then [⟨.pendingBase key, now⟩] else []) benchmark
      (benchmark.sealBase order key pending now evicted) := by
  have taken : Counted [] benchmark { benchmark with pending := benchmark.pending.erase key } :=
    Counted.of_same rfl fun _ _ => rfl
  have inserted := counted_insertSettledBase order
    { benchmark with pending := benchmark.pending.erase key } key now
  have marked : ∀ state : Benchmark,
      Counted (if evicted then [⟨.pendingBase key, now⟩] else []) state
        (if evicted then state.updateWindow key.coin fun window => window.evictState now
        else state) := by
    intro state
    cases evicted with
    | false => exact Counted.refl state
    | true => exact counted_evictState state (.pendingBase key) now rfl
  refine ((taken.trans inserted).trans (marked _)).trans_same ?_ ?_
  · rfl
  · intro coin provider
    unfold sealBase
    dsimp only
    rw [signatureOverflow_countArrivals _ _ _ _ _ rfl,
      signatureOverflow_countArrivals _ _ _ _ _ rfl]

theorem counted_settle (key : BaseKey) (now : Nat) (evicted : Bool) :
    Counted (benchmark.settleLosses order key now evicted) benchmark
      (benchmark.settle order key now evicted) := by
  unfold settleLosses
  cases found : benchmark.pending.lookup key with
  | none =>
      rw [settle_of_lookup_none order benchmark now evicted found]
      exact Counted.refl benchmark
  | some pending =>
      rw [settle_of_lookup order benchmark now evicted found]
      have sealed := counted_sealBase order benchmark key pending now evicted
      have finalized := counted_loop (benchmark.sealBase order key pending now evicted)
        (fun state (entry : ContentKey × PendingCandidate) =>
          state.finalizeCandidate order (eventKey key entry.1) entry.2 now
            (noncanonicalSeen benchmark.config (admitted order benchmark.config pending)))
        (fun state entry =>
          state.finalizeCandidateLosses order (eventKey key entry.1) entry.2 now
            (noncanonicalSeen benchmark.config (admitted order benchmark.config pending)))
        (fun state entry =>
          counted_finalizeCandidate order state (eventKey key entry.1) entry.2 now _)
        (canonical order benchmark.config pending)
      exact sealed.trans finalized

theorem counted_tick (now : Nat) :
    Counted (benchmark.tickLosses order now) benchmark (benchmark.tick order now) := by
  have settled := counted_loop benchmark (fun state key => state.settle order key now false)
    (fun state key => state.settleLosses order key now false)
    (fun state key => counted_settle order state key now false) (benchmark.expired order now)
  exact ⟨settled.tallies, settled.logged, settled.last⟩

theorem counted_sealOverdue (base : BaseKey) (received : Nat) :
    Counted (benchmark.sealOverdueLosses order base received) benchmark
      (benchmark.sealOverdue order base received) := by
  unfold sealOverdueLosses sealOverdue
  cases benchmark.pending.lookup base with
  | none => exact Counted.refl benchmark
  | some pending =>
      dsimp only
      split
      · exact counted_settle order benchmark base received false
      · exact Counted.refl benchmark

theorem counted_makeRoom (base : BaseKey) (received : Nat) :
    Counted (benchmark.makeRoomLosses order base received) benchmark
      (benchmark.makeRoom order base received) := by
  unfold makeRoomLosses makeRoom
  by_cases full : base ∉ benchmark.pending ∧
      benchmark.config.maxPending ≤ benchmark.pending.entries.length
  · rw [if_pos full, if_pos full]
    cases HashMap.oldest order PendingBase.firstObserved benchmark.pending with
    | none => exact Counted.refl benchmark
    | some oldest => exact counted_settle order benchmark oldest received true
  · rw [if_neg full, if_neg full]
    exact Counted.refl benchmark

/-- A counter that does not tell about caps. -/
theorem counted_bump (coin : String) (provider : Provider) {increment : ProviderCounters}
    (none : increment.signatureOverflow = 0) :
    Counted [] benchmark (benchmark.bump coin provider increment) := by
  refine Counted.of_same rfl fun other one => ?_
  rw [bump_counters]
  split
  · exact congrArg (fun more => (benchmark.counters other one).signatureOverflow + more) none
  · rfl

theorem counted_withPending (base : BaseKey) (cohort : PendingBase) :
    Counted [] benchmark (benchmark.withPending base cohort) :=
  Counted.of_same rfl fun _ _ => rfl

/-- A refused candidate overflows its provider's counter and stamps its coin. -/
theorem counted_refusal (key : EventKey) (provider : Provider) (received : Nat) :
    Counted [⟨.candidate key provider, received⟩] benchmark
      ((benchmark.bump key.coin provider { signatureOverflow := 1 }).markIntegrityLoss
        key.coin received) := by
  have windows : ∀ coin, ((benchmark.bump key.coin provider
      { signatureOverflow := 1 }).markIntegrityLoss key.coin received).windows coin =
      if coin = key.coin then (benchmark.windows coin).markIntegrityLoss received
      else benchmark.windows coin := fun _ => rfl
  have untold : ∀ coin tally, (∀ other, tally ≠ .signatureOverflow other) →
      Loss.counts ⟨.candidate key provider, received⟩ coin tally = false := by
    intro coin tally eviction
    refine Bool.eq_false_iff.mpr fun told => ?_
    have same := of_decide_eq_true (Bool.and_eq_true_iff.mp told).2
    exact eviction provider (Option.some.inj same).symm
  refine Counted.single _ ?_ ?_ ?_
  · intro coin tally
    cases tally with
    | stateEvictions =>
        rw [untold coin .stateEvictions nofun]
        refine (congrArg CoinWindow.stateEvictions (windows coin)).trans ?_
        split <;> rfl
    | rollingEvictions =>
        rw [untold coin .rollingEvictions nofun]
        refine (congrArg CoinWindow.rollingEvictions (windows coin)).trans ?_
        split <;> rfl
    | coverageEvictions =>
        rw [untold coin .coverageEvictions nofun]
        refine (congrArg CoinWindow.coverageEvictions (windows coin)).trans ?_
        split <;> rfl
    | signatureOverflow other =>
        unfold Tally.read
        dsimp only
        rw [markIntegrityLoss_counters, bump_counters]
        by_cases same : coin = key.coin ∧ other = provider
        · obtain ⟨rfl, rfl⟩ := same
          have told : Loss.counts ⟨.candidate key other, received⟩ key.coin
              (.signatureOverflow other) = true :=
            Bool.and_eq_true_iff.mpr ⟨decide_eq_true rfl, decide_eq_true rfl⟩
          rw [if_pos ⟨rfl, rfl⟩, told]
          rfl
        · rw [if_neg same]
          have apart : Loss.counts ⟨.candidate key provider, received⟩ coin
              (.signatureOverflow other) = false := by
            refine Bool.eq_false_iff.mpr fun told => same ?_
            obtain ⟨sameCoin, sameTally⟩ := Bool.and_eq_true_iff.mp told
            cases of_decide_eq_true sameTally
            exact ⟨(of_decide_eq_true sameCoin).symm, rfl⟩
          rw [apart]
          rfl
  · intro coin
    rw [windows]
    by_cases same : coin = key.coin
    · subst same
      rw [if_pos rfl]
      exact (if_pos rfl).symm
    · rw [if_neg same]
      exact (if_neg fun equal => same equal.symm).symm
  · intro coin
    rw [windows]
    by_cases same : coin = key.coin
    · subst same
      rw [if_pos rfl]
      exact (if_pos rfl).symm
    · rw [if_neg same]
      exact (if_neg fun equal => same equal.symm).symm

theorem counted_store (event : MarketEvent) :
    Counted (benchmark.storeLosses order event) benchmark (benchmark.store order event) := by
  rw [store_eq]
  unfold storeLosses
  split_ifs
  · exact (counted_withPending benchmark _ _).trans
      (counted_refusal _ event.key event.provider event.received)
  · exact (counted_withPending benchmark _ _).trans (counted_bump _ _ _ rfl)
  · exact (counted_withPending benchmark _ _).trans (counted_settle order _ _ _ false)
  · exact counted_withPending benchmark _ _

theorem counted_recordSealed (event : MarketEvent) :
    Counted [] benchmark (benchmark.recordSealed event) := by
  have none : ∀ matched : Bool, (if matched = true then ({ duplicate := 1 } : ProviderCounters)
      else { late := 1 }).signatureOverflow = 0 := by
    intro matched
    cases matched <;> rfl
  exact counted_bump benchmark event.key.coin event.provider (none _)

theorem counted_recordAccepted (event : MarketEvent) :
    Counted (benchmark.recordAcceptedLosses order event) benchmark
      (benchmark.recordAccepted order event) := by
  have observed : Counted [] benchmark
      (benchmark.bump event.key.coin event.provider { observed := 1 }) :=
    counted_bump benchmark event.key.coin event.provider rfl
  unfold recordAcceptedLosses recordAccepted
  dsimp only
  have overdue := observed.trans
    (counted_sealOverdue order (benchmark.bump event.key.coin event.provider { observed := 1 })
      event.key.base event.received)
  rw [List.nil_append] at overdue
  split
  · have classified := overdue.trans (counted_recordSealed _ event)
    rw [List.append_nil] at classified
    exact classified
  · exact (overdue.trans (counted_makeRoom order _ _ _)).trans (counted_store order _ event)

/-- A refused timestamp stamps its coin and tells about no cap. -/
theorem counted_reject (key : EventKey) (provider : Provider) {increment : ProviderCounters}
    (none : increment.signatureOverflow = 0) (received : Nat) :
    Counted [⟨.timestamp key, received⟩] benchmark
      ((benchmark.bump key.coin provider increment).markIntegrityLoss key.coin received) := by
  have marked : CoinWindow.Told [⟨.timestamp key, received⟩] (benchmark.windows key.coin)
      ((benchmark.windows key.coin).markIntegrityLoss received) :=
    CoinWindow.told_markIntegrityLoss (benchmark.windows key.coin) rfl
  refine (counted_bump benchmark key.coin provider none).trans ?_
  exact counted_updateWindow _ marked (List.forall_mem_singleton.mpr rfl)
    (List.forall_mem_singleton.mpr nofun)

theorem counted_recordMarket {event : MarketEvent} {after : Benchmark}
    (recorded : benchmark.recordMarket order event = some after) :
    Counted (benchmark.recordMarketLosses order event) benchmark after := by
  unfold recordMarket at recorded
  unfold recordMarketLosses
  by_cases active : event.provider ∉ benchmark.config.providers
  · rw [if_pos active] at recorded ⊢
    cases recorded
    exact Counted.refl benchmark
  rw [if_neg active] at recorded ⊢
  by_cases registered : event.key.coin ∉ benchmark.config.coins
  · rw [if_pos registered] at recorded
    cases recorded
  rw [if_neg registered] at recorded
  by_cases unset : event.key.eventMs = 0
  · rw [if_pos unset] at recorded
    rw [if_pos (Or.inl unset)]
    cases recorded
    exact counted_reject benchmark event.key event.provider rfl event.received
  rw [if_neg unset] at recorded
  by_cases future : event.receivedWallMs < event.key.eventMs
  · rw [if_pos future] at recorded
    rw [if_pos (Or.inr future)]
    cases recorded
    refine counted_reject benchmark event.key event.provider ?_ event.received
    split <;> rfl
  · rw [if_neg future] at recorded
    rw [if_neg (not_or.mpr ⟨unset, future⟩)]
    cases recorded
    exact counted_recordAccepted order benchmark event

theorem counted_record {event : ProbeEvent} {after : Benchmark}
    (recorded : benchmark.record order event = some after) :
    Counted (benchmark.recordLosses order event) benchmark after := by
  rcases record_cases order benchmark recorded with
    ⟨market, rfl, recorded⟩ | ⟨notMarket, provider, coin, increment, _, side, rfl⟩
  · exact counted_recordMarket order benchmark recorded
  · have none : benchmark.recordLosses order event = [] := by
      cases event with
      | market market => exact absurd rfl (notMarket market)
      | reconnect _ _ => rfl
      | sequenceGap _ _ _ => rfl
      | replay _ _ _ _ => rfl
    obtain ⟨_, _, _, _, _, _, rfl⟩ := side
    rw [none]
    exact counted_bump benchmark coin provider rfl

end Benchmark

end MarketBenchmark
