import MarketBenchmark.Benchmark.Calls
import MarketBenchmark.Foundation.RollingWindow

/-!
# The rings are rolling windows

Every candidate that a call finalizes is a sample: it enters the coverage ring
of its coin, and the ring of cohorts when it is complete.  The functions ending
in `Samples` list the samples of a call in the order in which the code inserts
them.  A part of the windows that evictions leave alone is the fold of the
samples over what it was, and so each ring follows the log of its coin.
-/

namespace MarketBenchmark

open Foundation.HashMaps Foundation.TimedRing Foundation.Runs

/-- A candidate at the settlement of its base, and what the settlement knew. -/
structure Sample where
  key : EventKey
  candidate : PendingCandidate
  now : Nat
  seen : Provider → Bool

namespace Benchmark

variable (order : IterationOrder) (benchmark : Benchmark)

/-! ## The samples of each function -/

def settleSamples (key : BaseKey) (now : Nat) : List Sample :=
  match benchmark.pending.lookup key with
  | none => []
  | some pending =>
      (canonical order benchmark.config pending).map fun entry =>
        { key := eventKey key entry.1
          candidate := entry.2
          now := now
          seen := noncanonicalSeen benchmark.config (admitted order benchmark.config pending) }

def tickSamples (now : Nat) : List Sample :=
  emissions (fun state key => some (state.settle order key now false))
    (fun state key => state.settleSamples order key now) benchmark (benchmark.expired order now)

def sealOverdueSamples (base : BaseKey) (received : Nat) : List Sample :=
  match benchmark.pending.lookup base with
  | none => []
  | some pending =>
      if benchmark.config.cohortTimeout ≤ received - pending.firstObserved then
        benchmark.settleSamples order base received
      else []

def makeRoomSamples (base : BaseKey) (received : Nat) : List Sample :=
  if base ∉ benchmark.pending ∧
      benchmark.config.maxPending ≤ benchmark.pending.entries.length then
    match HashMap.oldest order PendingBase.firstObserved benchmark.pending with
    | none => []
    | some oldest => benchmark.settleSamples order oldest received
  else []

def storeSamples (event : MarketEvent) : List Sample :=
  if benchmark.Overflowing event then []
  else if (benchmark.openedCandidate event).hasArrival event.provider then []
  else if benchmark.config.providers.length = 1 then
    (benchmark.withPending event.key.base (benchmark.heldBase event
      (withArrival (benchmark.openedCandidate event) event))).settleSamples order event.key.base
        event.received
  else []

def recordAcceptedSamples (event : MarketEvent) : List Sample :=
  let base := event.key.base
  let benchmark := benchmark.bump event.key.coin event.provider { observed := 1 }
  let overdue := benchmark.sealOverdueSamples order base event.received
  let benchmark := benchmark.sealOverdue order base event.received
  if base ∈ benchmark.settledBases then overdue
  else
    overdue ++ benchmark.makeRoomSamples order base event.received ++
      (benchmark.makeRoom order base event.received).storeSamples order event

def recordSamples : ProbeEvent → List Sample
  | .market event =>
      if Accepted benchmark.config event then benchmark.recordAcceptedSamples order event else []
  | _ => []

/-- The samples of a call. -/
def samples (benchmark : Benchmark) : Call → List Sample
  | .record order event => benchmark.recordSamples order event
  | .tick order now => benchmark.tickSamples order now
  | .windowEvents order now _ _ _ => (benchmark.withPrepared none).tickSamples order now
  | _ => []

/-! ## What samples alone change -/

section Absorbs

variable {Part : Type}

/-- Marks of losses leave this part of a window alone, and a sample changes it in this way. -/
structure Absorbs (config : BenchmarkConfig) (part : CoinWindow → Part)
    (absorb : Part → Sample → Part) : Prop where
  evicted : ∀ window stamp, part (CoinWindow.evictState window stamp) = part window
  marked : ∀ window stamp, part (CoinWindow.markIntegrityLoss window stamp) = part window
  sampled : ∀ window sample, part (sampleWindow config sample.key sample.candidate sample.now
    sample.seen window) = absorb (part window) sample

/-- The samples of one coin. -/
def samplesOf (coin : String) (samples : List Sample) : List Sample :=
  samples.filter fun sample => decide (sample.key.coin = coin)

theorem samplesOf_append (coin : String) (first second : List Sample) :
    samplesOf coin (first ++ second) = samplesOf coin first ++ samplesOf coin second :=
  List.filter_append ..

/-- From one state to another, the part of each window has absorbed the samples of its coin. -/
structure Absorbed (part : CoinWindow → Part) (absorb : Part → Sample → Part)
    (samples : List Sample) (before after : Benchmark) : Prop where
  config : after.config = before.config
  windows : ∀ coin, part (after.windows coin) =
    (samplesOf coin samples).foldl absorb (part (before.windows coin))

variable {part : CoinWindow → Part} {absorb : Part → Sample → Part} {config : BenchmarkConfig}

namespace Absorbed

variable {first second third : Benchmark} {early late : List Sample}

theorem of_windows (sameConfig : second.config = first.config)
    (same : ∀ coin, part (second.windows coin) = part (first.windows coin)) :
    Absorbed part absorb [] first second where
  config := sameConfig
  windows := same

theorem trans (left : Absorbed part absorb early first second)
    (right : Absorbed part absorb late second third) :
    Absorbed part absorb (early ++ late) first third where
  config := right.config.trans left.config
  windows coin := by
    rw [right.windows, left.windows, samplesOf_append, List.foldl_append]

theorem trans_same (left : Absorbed part absorb early first second)
    (sameConfig : third.config = second.config)
    (same : ∀ coin, part (third.windows coin) = part (second.windows coin)) :
    Absorbed part absorb early first third := by
  have both := left.trans (of_windows sameConfig same)
  rw [List.append_nil] at both
  exact both

end Absorbed

variable {benchmark}

/-- Finalizing a candidate is one sample. -/
theorem absorbed_finalizeCandidate (absorbs : Absorbs benchmark.config part absorb)
    (sample : Sample) : Absorbed part absorb [sample] benchmark
      (benchmark.finalizeCandidate order sample.key sample.candidate sample.now sample.seen) where
  config := finalizeCandidate_config order benchmark _ _ _ _
  windows coin := by
    rw [finalizeCandidate_windows order benchmark _ _ _ _ part absorbs.evicted, absorbs.sampled,
      samplesOf, List.filter_singleton]
    by_cases own : coin = sample.key.coin
    · rw [if_pos own, decide_eq_true own.symm]
      rfl
    · rw [if_neg own, decide_eq_false (Ne.symm own)]
      rfl

theorem absorbed_foldl (absorbs : Absorbs config part absorb) (samples : List Sample)
    (state : Benchmark) (sameConfig : state.config = config) :
    Absorbed part absorb samples state (samples.foldl (fun state sample =>
      state.finalizeCandidate order sample.key sample.candidate sample.now sample.seen) state) := by
  induction samples generalizing state with
  | nil => exact Absorbed.of_windows rfl fun _ => rfl
  | cons sample rest ih =>
      rw [← sameConfig] at absorbs
      have head := absorbed_finalizeCandidate order absorbs sample
      exact head.trans (ih _ (head.config.trans sameConfig))

theorem absorbed_settle (absorbs : Absorbs benchmark.config part absorb) (key : BaseKey)
    (now : Nat) (evicted : Bool) : Absorbed part absorb (benchmark.settleSamples order key now)
      benchmark (benchmark.settle order key now evicted) := by
  unfold settleSamples
  cases found : benchmark.pending.lookup key with
  | none =>
      rw [settle_of_lookup_none order benchmark now evicted found]
      exact Absorbed.of_windows rfl fun _ => rfl
  | some pending =>
      have sealing : Absorbed part absorb [] benchmark
          (benchmark.sealBase order key pending now evicted) :=
        Absorbed.of_windows (sealBase_config order benchmark key pending now evicted)
          (sealBase_windows order benchmark key pending now evicted part absorbs.evicted)
      have finalized := absorbed_foldl order absorbs
        ((canonical order benchmark.config pending).map fun entry =>
          { key := eventKey key entry.1
            candidate := entry.2
            now := now
            seen := noncanonicalSeen benchmark.config (admitted order benchmark.config pending) })
        (benchmark.sealBase order key pending now evicted) sealing.config
      rw [List.foldl_map] at finalized
      rw [settle_of_lookup order benchmark now evicted found]
      exact sealing.trans finalized

/-- A tick absorbs the samples of the bases that it settles, before it prunes. -/
theorem absorbed_expired (absorbs : Absorbs config part absorb) (now : Nat)
    (keys : List BaseKey) (state : Benchmark) (sameConfig : state.config = config) :
    Absorbed part absorb
      (emissions (fun state key => some (state.settle order key now false))
        (fun state key => state.settleSamples order key now) state keys) state
      (keys.foldl (fun state key => state.settle order key now false) state) := by
  induction keys generalizing state with
  | nil => exact Absorbed.of_windows rfl fun _ => rfl
  | cons key rest ih =>
      rw [emissions_cons _ rest rfl]
      subst sameConfig
      have head := absorbed_settle order absorbs key now false
      exact head.trans (ih _ head.config)

theorem absorbed_sealOverdue (absorbs : Absorbs benchmark.config part absorb) (base : BaseKey)
    (received : Nat) : Absorbed part absorb (benchmark.sealOverdueSamples order base received)
      benchmark (benchmark.sealOverdue order base received) := by
  unfold sealOverdueSamples sealOverdue
  cases benchmark.pending.lookup base with
  | none => exact Absorbed.of_windows rfl fun _ => rfl
  | some pending =>
      dsimp only
      split
      · exact absorbed_settle order absorbs base received false
      · exact Absorbed.of_windows rfl fun _ => rfl

theorem absorbed_makeRoom (absorbs : Absorbs benchmark.config part absorb) (base : BaseKey)
    (received : Nat) : Absorbed part absorb (benchmark.makeRoomSamples order base received)
      benchmark (benchmark.makeRoom order base received) := by
  unfold makeRoomSamples makeRoom
  split
  · cases HashMap.oldest order PendingBase.firstObserved benchmark.pending with
    | none => exact Absorbed.of_windows rfl fun _ => rfl
    | some oldest => exact absorbed_settle order absorbs oldest received true
  · exact Absorbed.of_windows rfl fun _ => rfl

theorem absorbed_store (absorbs : Absorbs benchmark.config part absorb) (event : MarketEvent) :
    Absorbed part absorb (benchmark.storeSamples order event) benchmark
      (benchmark.store order event) := by
  rw [store_eq]
  unfold storeSamples
  split_ifs
  · refine Absorbed.of_windows rfl fun coin => ?_
    unfold markIntegrityLoss
    rw [updateWindow_windows]
    split
    · exact absorbs.marked _ _
    · rfl
  · exact Absorbed.of_windows rfl fun _ => rfl
  · have held : Absorbed part absorb [] benchmark (benchmark.withPending event.key.base
        (benchmark.heldBase event (withArrival (benchmark.openedCandidate event) event))) :=
      Absorbed.of_windows rfl fun _ => rfl
    have here : Absorbs (benchmark.withPending event.key.base (benchmark.heldBase event
        (withArrival (benchmark.openedCandidate event) event))).config part absorb := absorbs
    exact held.trans (absorbed_settle order here event.key.base event.received false)
  · exact Absorbed.of_windows rfl fun _ => rfl

theorem absorbed_recordAccepted (absorbs : Absorbs benchmark.config part absorb)
    (event : MarketEvent) : Absorbed part absorb (benchmark.recordAcceptedSamples order event)
      benchmark (benchmark.recordAccepted order event) := by
  have counted : Absorbed part absorb [] benchmark
      (benchmark.bump event.key.coin event.provider { observed := 1 }) :=
    Absorbed.of_windows rfl fun _ => rfl
  have atCounted : Absorbs (benchmark.bump event.key.coin event.provider
      { observed := 1 }).config part absorb := absorbs
  have overdue := counted.trans
    (absorbed_sealOverdue order atCounted event.key.base event.received)
  unfold recordAcceptedSamples recordAccepted
  dsimp only
  split
  · exact overdue.trans_same rfl fun _ => rfl
  · have atState := overdue.config ▸ absorbs
    have room := overdue.trans (absorbed_makeRoom order atState event.key.base
      event.received)
    have atRoom := room.config ▸ absorbs
    exact room.trans (absorbed_store order atRoom event)

/-- A call that ticks absorbs its samples and prunes the windows then. -/
theorem absorbed_pruning {call : Call} {now : Nat} {after : Benchmark}
    (absorbs : Absorbs benchmark.config part absorb) (pruning : call.pruneTime = some now)
    (stepped : benchmark.step call = some after) :
    ∃ middle : Benchmark, Absorbed part absorb (benchmark.samples call) benchmark middle ∧
      ∀ coin, after.windows coin =
        (middle.windows coin).prune benchmark.config.rollingWindow now := by
  have ticked : ∀ (order : IterationOrder) (state : Benchmark),
      state.config = benchmark.config →
      ∃ middle : Benchmark, Absorbed part absorb (state.tickSamples order now) state middle ∧
        ∀ coin, (state.tick order now).windows coin =
          (middle.windows coin).prune benchmark.config.rollingWindow now := by
    intro order state sameConfig
    have expired := absorbed_expired order absorbs now (state.expired order now) state sameConfig
    refine ⟨_, expired, fun coin => ?_⟩
    rw [← sameConfig, ← expired.config]
    rfl
  cases call with
  | record | commitPreparedPublication | rejectPreparedPublication => cases pruning
  | tick order time =>
      cases pruning
      cases stepped
      exact ticked order benchmark rfl
  | windowEvents order time wallNowMs signals clock =>
      cases pruning
      obtain ⟨⟨state, rows⟩, prepared, same⟩ := Option.map_eq_some_iff.mp stepped
      obtain ⟨interval, prepared⟩ := windowEvents_cases order benchmark prepared
      obtain ⟨middle, absorbed, pruned⟩ := ticked order (benchmark.withPrepared none) rfl
      refine ⟨middle, ⟨absorbed.config, absorbed.windows⟩, fun coin => ?_⟩
      rw [← same, prepared]
      exact pruned coin

/-- Any other call absorbs its samples; a commit also marks what it has reported. -/
theorem absorbed_recording {call : Call} {after : Benchmark}
    (absorbs : Absorbs benchmark.config part absorb)
    (reported : ∀ window stop, part (markOutcomesReported window stop) = part window)
    (still : call.pruneTime = none) (stepped : benchmark.step call = some after) :
    Absorbed part absorb (benchmark.samples call) benchmark after := by
  cases call with
  | tick | windowEvents => cases still
  | record order event =>
      rcases record_cases order benchmark stepped with
        ⟨market, rfl, recorded⟩ | ⟨notMarket, provider, coin, increment, _, _, rfl⟩
      · show Absorbed part absorb (if Accepted benchmark.config market then _ else []) _ _
        rcases recordMarket_cases order benchmark recorded with
          ⟨inactive, rfl⟩ | ⟨_, _, rejected, increment, _, rfl⟩ | ⟨_, accepted, rfl⟩
        · rw [if_neg fun accepted => inactive accepted.active]
          exact Absorbed.of_windows rfl fun _ => rfl
        · rw [if_neg rejected]
          refine Absorbed.of_windows rfl fun coin => ?_
          unfold markIntegrityLoss
          rw [updateWindow_windows]
          split
          · exact absorbs.marked _ _
          · rfl
        · rw [if_pos accepted]
          exact absorbed_recordAccepted order absorbs market
      · cases event with
        | market market => exact absurd rfl (notMarket market)
        | reconnect | sequenceGap | replay => exact Absorbed.of_windows rfl fun _ => rfl
  | commitPreparedPublication =>
      cases stepped
      rcases commitPreparedPublication_cases benchmark with same | ⟨interval, _, _, _, same⟩
      · rw [same]
        exact Absorbed.of_windows rfl fun _ => rfl
      · rw [same]
        exact Absorbed.of_windows rfl fun coin => reported (benchmark.windows coin) interval.stop
  | rejectPreparedPublication =>
      cases stepped
      exact Absorbed.of_windows rfl fun _ => rfl

end Absorbs

/-! ## Rings -/

section Rings

variable {Entry : Type} {config : BenchmarkConfig} {stamp : Entry → Nat}
  {entry : Sample → Option Entry} {ring : CoinWindow → CappedRing Entry}

/-- What a sample does to a ring. -/
def absorbEntry (config : BenchmarkConfig) (stamp : Entry → Nat) (entry : Sample → Option Entry)
    (ring : CappedRing Entry) (sample : Sample) : CappedRing Entry :=
  (entry sample).elim ring (ring.insert stamp config.maxRollingCohorts)

/-- This part of a window is a ring of entries of samples, pruned by age. -/
structure IsRing (config : BenchmarkConfig) (stamp : Entry → Nat) (entry : Sample → Option Entry)
    (ring : CoinWindow → CappedRing Entry) : Prop where
  absorbs : Absorbs config ring (absorbEntry config stamp entry)
  pruned : ∀ window now, ring (CoinWindow.prune window config.rollingWindow now) =
    (ring window).expire stamp (now - config.rollingWindow)
  reported : ∀ window stop, ring (markOutcomesReported window stop) = ring window
  empty : ring {} = ⟨[], 0⟩

/-- The entries that the samples of a coin have put into its ring. -/
def logOf (entry : Sample → Option Entry) (coin : String) (samples : List Sample) :
    List Entry :=
  (samplesOf coin samples).filterMap entry

theorem logOf_append (coin : String) (first second : List Sample) :
    logOf entry coin (first ++ second) = logOf entry coin first ++ logOf entry coin second := by
  unfold logOf
  rw [samplesOf_append, List.filterMap_append]

/-- A ring that follows a log follows the longer log after it has absorbed the samples. -/
theorem follows_foldl {cut : Nat} {log uncapped : List Entry} {before : CappedRing Entry}
    (follows : Follows stamp config.maxRollingCohorts cut log before uncapped)
    (samples : List Sample) : ∃ longer, Follows stamp config.maxRollingCohorts cut
      (log ++ samples.filterMap entry)
      (samples.foldl (absorbEntry config stamp entry) before) longer := by
  induction samples generalizing log before uncapped with
  | nil => exact ⟨uncapped, by rw [List.filterMap_nil, List.append_nil]; exact follows⟩
  | cons sample rest ih =>
      rw [List.foldl_cons, List.filterMap_cons, absorbEntry]
      cases entry sample with
      | none => exact ih follows
      | some inserted =>
          obtain ⟨longer, held⟩ := ih (follows.insert inserted)
          rw [List.append_assoc] at held
          exact ⟨longer, held⟩

/-- The samples of a run from a new benchmark. -/
def samplesFrom (config : BenchmarkConfig) (startedAt startedWallMs : Nat) (calls : List Call) :
    List Sample :=
  emissions step samples (Benchmark.new config startedAt startedWallMs) calls

/-- The instants at which the calls prune. -/
def pruneTimes (calls : List Call) : List Nat :=
  calls.filterMap Call.pruneTime

variable {startedAt startedWallMs : Nat}

/-- One more call that prunes: the ring absorbs its samples and then expires. -/
theorem follows_pruning (isRing : IsRing config stamp entry ring) {before after : Benchmark}
    {call : Call} {now : Nat} {coin : String} {log uncapped : List Entry}
    (sameConfig : before.config = config) (pruning : call.pruneTime = some now)
    (stepped : before.step call = some after)
    (follows : Follows stamp config.maxRollingCohorts (now - config.rollingWindow) log
      (ring (before.windows coin)) uncapped) :
    ∃ absorbed longer, Follows stamp config.maxRollingCohorts (now - config.rollingWindow)
        (log ++ logOf entry coin (before.samples call)) absorbed longer ∧
      ring (after.windows coin) = absorbed.expire stamp (now - config.rollingWindow) := by
  subst sameConfig
  obtain ⟨middle, absorbed, pruned⟩ := absorbed_pruning isRing.absorbs pruning stepped
  obtain ⟨longer, held⟩ := follows_foldl follows (samplesOf coin (before.samples call))
  rw [← absorbed.windows] at held
  refine ⟨_, longer, held, ?_⟩
  rw [pruned, isRing.pruned]

/-- In a run whose ticks do not go back, each ring follows the log of its coin. -/
theorem follows_run (isRing : IsRing config stamp entry ring) {calls : List Call}
    {final : Benchmark}
    (executed : run step (Benchmark.new config startedAt startedWallMs) calls = some final)
    (ordered : (pruneTimes calls).Pairwise (· ≤ ·)) {now : Nat}
    (latest : ∀ time ∈ pruneTimes calls, time ≤ now) (coin : String) :
    ∃ uncapped, Follows stamp config.maxRollingCohorts (now - config.rollingWindow)
      (logOf entry coin (samplesFrom config startedAt startedWallMs calls))
      (ring (final.windows coin)) uncapped := by
  refine run_induction (fun calls state => (pruneTimes calls).Pairwise (· ≤ ·) →
    ∀ now, (∀ time ∈ pruneTimes calls, time ≤ now) →
      ∃ uncapped, Follows stamp config.maxRollingCohorts (now - config.rollingWindow)
        (logOf entry coin (samplesFrom config startedAt startedWallMs calls))
        (ring (state.windows coin)) uncapped) ?_ ?_ executed ordered now latest
  · intro _ now _
    refine ⟨[], ?_⟩
    show Follows stamp _ _ [] (ring {}) []
    rw [isRing.empty]
    exact Follows.nil stamp _ _
  · intro calls before call after reached ih stepped ordered now latest
    have sameConfig : before.config = config := run_config reached
    unfold pruneTimes at ordered latest
    rw [List.filterMap_append] at ordered latest
    obtain ⟨orderedBefore, _, earlier⟩ := List.pairwise_append.mp ordered
    rw [samplesFrom, emissions_concat _ call reached, logOf_append]
    cases prunes : call.pruneTime with
    | none =>
        obtain ⟨uncapped, follows⟩ := ih orderedBefore now fun time member =>
          latest time (List.mem_append_left _ member)
        subst sameConfig
        obtain ⟨longer, held⟩ := follows_foldl follows (samplesOf coin (before.samples call))
        rw [← (absorbed_recording isRing.absorbs isRing.reported prunes stepped).windows] at held
        exact ⟨longer, held⟩
    | some time =>
        have last : time ∈ [call].filterMap Call.pruneTime := by
          rw [List.filterMap_cons_some prunes]
          exact List.mem_cons_self
        obtain ⟨uncapped, follows⟩ := ih orderedBefore time fun other member =>
          earlier other member time last
        obtain ⟨absorbed, longer, held, same⟩ :=
          follows_pruning isRing sameConfig prunes stepped follows
        rw [same]
        exact ⟨_, held.expire.raise
          (Nat.sub_le_sub_right (latest time (List.mem_append_right _ last)) _)⟩

/-- Right after a call has pruned, a ring is the newest part of the recent log. -/
theorem ring_after_pruning (isRing : IsRing config stamp entry ring) {calls : List Call}
    {call : Call} {now : Nat} {final : Benchmark}
    (executed : run step (Benchmark.new config startedAt startedWallMs) (calls ++ [call]) =
      some final) (pruning : call.pruneTime = some now)
    (ordered : (pruneTimes (calls ++ [call])).Pairwise (· ≤ ·)) (coin : String) :
    let log := (logOf entry coin (samplesFrom config startedAt startedWallMs
      (calls ++ [call]))).filter (recent stamp (now - config.rollingWindow))
    (ring (final.windows coin)).entries = (inOrder stamp log).rtake config.maxRollingCohorts ∧
      ((ring (final.windows coin)).evictions = 0 →
        (ring (final.windows coin)).entries = inOrder stamp log) := by
  obtain ⟨before, reached, stepped⟩ := run_concat_eq_some executed
  unfold pruneTimes at ordered
  rw [List.filterMap_append, List.filterMap_cons_some pruning] at ordered
  obtain ⟨orderedBefore, _, earlier⟩ := List.pairwise_append.mp ordered
  obtain ⟨uncapped, follows⟩ := follows_run isRing reached orderedBefore
    (fun time member => earlier time member now List.mem_cons_self) coin
  obtain ⟨absorbed, longer, held, same⟩ :=
    follows_pruning isRing (run_config reached) pruning stepped follows
  intro log
  have sameLog : logOf entry coin (samplesFrom config startedAt startedWallMs calls) ++
      logOf entry coin (before.samples call) =
      logOf entry coin (samplesFrom config startedAt startedWallMs (calls ++ [call])) := by
    rw [← logOf_append]
    exact congrArg (logOf entry coin) (emissions_concat _ call reached).symm
  rw [sameLog] at held
  rw [same]
  exact held.entries_expire

end Rings

/-! ## The two rings of a coin -/

/-- A cohort as it was committed, without its number and what has been reported of it. -/
def bare (cohort : CommittedCohort) : CommittedCohort :=
  { cohort with outcomeReported := false, serial := 0 }

/-- The cohort that a sample commits, if it is complete. -/
def cohortOf (config : BenchmarkConfig) (sample : Sample) : Option CommittedCohort :=
  if sample.candidate.complete config.providers then
    some (cohortEntry config sample.key sample.candidate 0)
  else none

/-- The coverage entry that a sample settles. -/
def coverageOf (config : BenchmarkConfig) (sample : Sample) : Option CoverageCohort :=
  some (coverageEntry config sample.key sample.candidate sample.now sample.seen)

def cohortRing (window : CoinWindow) : CappedRing CommittedCohort where
  entries := window.cohorts.map bare
  evictions := window.rollingEvictions

def coverageRing (window : CoinWindow) : CappedRing CoverageCohort where
  entries := window.coverage
  evictions := window.coverageEvictions

theorem cohortRing_insertCohort (window : CoinWindow) (cap now : Nat) (cohort : CommittedCohort) :
    cohortRing (window.insertCohort cap now cohort) =
      (cohortRing window).insert CommittedCohort.committedAt cap (bare cohort) := by
  have keeps : ∀ other, (bare other).committedAt = other.committedAt := fun _ => rfl
  have inserted : (insertInOrder CommittedCohort.committedAt window.cohorts cohort).map bare =
      insertInOrder CommittedCohort.committedAt (window.cohorts.map bare) (bare cohort) :=
    map_insertInOrder bare keeps window.cohorts cohort
  unfold CoinWindow.insertCohort cohortRing CappedRing.insert insertCapped
  dsimp only
  rw [← inserted, List.length_map, ← List.map_tail]
  split
  · rfl
  · rfl

theorem coverageRing_insertCoverage (window : CoinWindow) (cap now : Nat)
    (entry : CoverageCohort) :
    coverageRing (window.insertCoverage cap now entry) =
      (coverageRing window).insert CoverageCohort.settledAt cap entry := by
  unfold CoinWindow.insertCoverage coverageRing CappedRing.insert insertCapped
  dsimp only
  split
  · rfl
  · rfl

/-- Inserting into one ring leaves the other alone. -/
theorem cohortRing_insertCoverage (window : CoinWindow) (cap now : Nat) (entry : CoverageCohort) :
    cohortRing (window.insertCoverage cap now entry) = cohortRing window := by
  unfold CoinWindow.insertCoverage
  dsimp only
  split
  · rfl
  · rfl

theorem coverageRing_insertCohort (window : CoinWindow) (cap now : Nat)
    (cohort : CommittedCohort) :
    coverageRing (window.insertCohort cap now cohort) = coverageRing window := by
  unfold CoinWindow.insertCohort
  dsimp only
  split
  · rfl
  · rfl

variable (config : BenchmarkConfig)

/-- The age of an entry is within the window when its stamp is not below the cut. -/
theorem recent_eq {Entry : Type} (stamp : Entry → Nat) (window now : Nat) :
    recent stamp (now - window) = fun entry => decide (now - stamp entry ≤ window) := by
  funext entry
  exact decide_eq_decide.mpr (by rw [Nat.sub_le_iff_le_add, Nat.sub_le_iff_le_add, Nat.add_comm])

theorem isRing_cohorts :
    IsRing config CommittedCohort.committedAt (cohortOf config) cohortRing where
  absorbs :=
    { evicted := fun _ _ => rfl
      marked := fun _ _ => rfl
      sampled := fun window sample => by
        unfold sampleWindow absorbEntry cohortOf
        dsimp only
        split
        · rw [cohortRing_insertCohort, cohortRing_insertCoverage]
          rfl
        · rw [cohortRing_insertCoverage]
          rfl }
  pruned window now := by
    unfold CappedRing.expire
    rw [recent_eq]
    unfold cohortRing CoinWindow.prune
    dsimp only
    rw [List.filter_map]
    rfl
  reported window stop := by
    unfold markOutcomesReported cohortRing
    dsimp only
    rw [List.map_map]
    congr 1
    refine List.map_congr_left fun cohort _ => ?_
    rw [Function.comp_apply]
    split
    · rfl
    · rfl
  empty := rfl

theorem isRing_coverage :
    IsRing config CoverageCohort.settledAt (coverageOf config) coverageRing where
  absorbs :=
    { evicted := fun _ _ => rfl
      marked := fun _ _ => rfl
      sampled := fun window sample => by
        unfold sampleWindow
        dsimp only
        split
        · rw [coverageRing_insertCohort, coverageRing_insertCoverage]
          rfl
        · rw [coverageRing_insertCoverage]
          rfl }
  pruned window now := by
    unfold CappedRing.expire
    rw [recent_eq]
    rfl
  reported window stop := rfl
  empty := rfl

/-- Every complete sample is counted once. -/
theorem absorbs_completeCohorts : Absorbs config CoinWindow.completeCohorts
    fun count sample => count + (cohortOf config sample).toList.length where
  evicted _ _ := rfl
  marked _ _ := rfl
  sampled window sample := by
    rw [sampleWindow_completeCohorts, cohortOf]
    split
    · rfl
    · rfl

variable {config} {startedAt startedWallMs : Nat} {calls : List Call} {final : Benchmark}

theorem foldl_count {Item Entry : Type} (entry : Item → Option Entry) (items : List Item)
    (count : Nat) :
    items.foldl (fun count item => count + (entry item).toList.length) count =
      count + (items.filterMap entry).length := by
  induction items generalizing count with
  | nil => rfl
  | cons item rest ih =>
      rw [List.foldl_cons, ih, List.filterMap_cons]
      cases entry item with
      | none => rfl
      | some inserted =>
          rw [List.length_cons, Nat.add_assoc]
          exact congrArg (count + ·) (Nat.add_comm 1 _)

/-- The complete cohorts of a coin are counted. -/
theorem completeCohorts_run
    (executed : run step (Benchmark.new config startedAt startedWallMs) calls = some final)
    (coin : String) : (final.windows coin).completeCohorts =
      (logOf (cohortOf config) coin (samplesFrom config startedAt startedWallMs calls)).length := by
  refine run_induction (fun calls state => (state.windows coin).completeCohorts =
    (logOf (cohortOf config) coin (samplesFrom config startedAt startedWallMs calls)).length)
    rfl ?_ executed
  intro calls before call after reached ih stepped
  have sameConfig : before.config = config := run_config reached
  have absorbs := absorbs_completeCohorts before.config
  have counted : (after.windows coin).completeCohorts =
      (before.windows coin).completeCohorts +
        (logOf (cohortOf before.config) coin (before.samples call)).length := by
    rw [logOf, ← foldl_count]
    cases prunes : call.pruneTime with
    | none => exact (absorbed_recording absorbs (fun _ _ => rfl) prunes stepped).windows coin
    | some now =>
        obtain ⟨middle, absorbed, pruned⟩ := absorbed_pruning absorbs prunes stepped
        rw [pruned]
        exact absorbed.windows coin
  rw [samplesFrom, emissions_concat _ call reached, logOf_append, List.length_append, counted, ih,
    sameConfig]
  rfl

/-- The cohorts of a coin that a run has committed, in commit order. -/
def committedCohorts (config : BenchmarkConfig) (startedAt startedWallMs : Nat) (calls : List Call)
    (coin : String) : List CommittedCohort :=
  logOf (cohortOf config) coin (samplesFrom config startedAt startedWallMs calls)

/-- The coverage entries of a coin that a run has settled, in the order of their settlement. -/
def settledEntries (config : BenchmarkConfig) (startedAt startedWallMs : Nat) (calls : List Call)
    (coin : String) : List CoverageCohort :=
  logOf (coverageOf config) coin (samplesFrom config startedAt startedWallMs calls)

/-- The entries within the rolling window before `now`. -/
def within {Entry : Type} (config : BenchmarkConfig) (stamp : Entry → Nat) (now : Nat)
    (log : List Entry) : List Entry :=
  log.filter fun entry => decide (now - stamp entry ≤ config.rollingWindow)

/--
Right after a tick or the preparation of a publication has pruned, the ring of cohorts of a coin
is the newest part of the cohorts ever committed that lie within the rolling window, in the order
of their commits, and all of them when none was evicted.  So is the ring of coverage entries.
-/
theorem rings_are_rolling_windows {call : Call} {now : Nat}
    (executed : run step (Benchmark.new config startedAt startedWallMs) (calls ++ [call]) =
      some final) (pruning : call.pruneTime = some now)
    (ordered : (pruneTimes (calls ++ [call])).Pairwise (· ≤ ·)) (coin : String) :
    let cohorts := committedCohorts config startedAt startedWallMs (calls ++ [call]) coin
    let recentCohorts := inOrder CommittedCohort.committedAt
      (within config CommittedCohort.committedAt now cohorts)
    let coverage := settledEntries config startedAt startedWallMs (calls ++ [call]) coin
    let recentCoverage := inOrder CoverageCohort.settledAt
      (within config CoverageCohort.settledAt now coverage)
    cohorts.length = (final.windows coin).completeCohorts ∧
      (final.windows coin).cohorts.map bare = recentCohorts.rtake config.maxRollingCohorts ∧
      ((final.windows coin).rollingEvictions = 0 →
        (final.windows coin).cohorts.map bare = recentCohorts) ∧
      (∀ latest ∈ (final.windows coin).cohorts.getLast?, ∀ cohort ∈ recentCohorts,
        cohort.committedAt ≤ latest.committedAt) ∧
      (final.windows coin).coverage = recentCoverage.rtake config.maxRollingCohorts ∧
      ((final.windows coin).coverageEvictions = 0 →
        (final.windows coin).coverage = recentCoverage) := by
  intro cohorts recentCohorts coverage recentCoverage
  have cohortsExact := ring_after_pruning (isRing_cohorts config) executed pruning ordered coin
  have coverageExact := ring_after_pruning (isRing_coverage config) executed pruning ordered coin
  rw [recent_eq] at cohortsExact coverageExact
  refine ⟨(completeCohorts_run executed coin).symm, cohortsExact.1, cohortsExact.2, ?_,
    coverageExact.1, coverageExact.2⟩
  intro latest isLast cohort member
  have bareLast : ((final.windows coin).cohorts.map bare).getLast? = some (bare latest) := by
    rw [List.getLast?_map, isLast]
    rfl
  rw [show (final.windows coin).cohorts.map bare = _ from cohortsExact.1] at bareLast
  exact stamp_le_getLast?_rtake (ordered_inOrder _ _) bareLast cohort member

/-- A book process that keeps three cohorts for a hundred instants. -/
def ringsProcess : BenchmarkConfig :=
  { bookProcess with
    rollingWindow := 100
    maxRollingCohorts := 3 }

/-- A provider delivers the quote of the time. -/
def recordQuoteOf (eventMs : Nat) (provider : Provider) (received : Nat) : Call :=
  .record .stored (.market
    { provider := provider
      key :=
        { coin := "BTC"
          eventMs := eventMs
          content := .bbo (some { px := "7", sz := "1", n := 1 }) none }
      received := received
      receivedWallMs := eventMs + received })

/-- The second base is complete before the first, the fourth evicts one, and another gets old. -/
def ringsCalls : List Call :=
  [recordQuoteOf 1 .foundationWs 0, recordQuoteOf 2 .foundationWs 1,
    recordQuoteOf 2 .hydromancerWs 1, recordQuoteOf 2 .quickNodeGrpc 2,
    recordQuoteOf 1 .quickNodeGrpc 3, recordQuoteOf 1 .hydromancerWs 5, .tick .stored 20,
    recordQuoteOf 3 .foundationWs 24, recordQuoteOf 3 .hydromancerWs 24,
    recordQuoteOf 3 .quickNodeGrpc 25, .tick .stored 40, recordQuoteOf 4 .foundationWs 49,
    recordQuoteOf 4 .hydromancerWs 49, recordQuoteOf 4 .quickNodeGrpc 50, .tick .stored 60]

/-- Four cohorts are committed out of order; one of them is evicted and one is pruned. -/
theorem rings_are_rolling_windows_sample : ∃ final,
    run step (Benchmark.new ringsProcess 0 0) (ringsCalls ++ [.tick .stored 106]) = some final ∧
      (committedCohorts ringsProcess 0 0 (ringsCalls ++ [.tick .stored 106]) "BTC").map
        CommittedCohort.committedAt = [5, 2, 25, 50] ∧
      (final.windows "BTC").completeCohorts = 4 ∧
      (final.windows "BTC").rollingEvictions = 1 ∧
      (final.windows "BTC").cohorts.map CommittedCohort.committedAt = [25, 50] ∧
      (final.windows "BTC").coverage.map CoverageCohort.settledAt = [25, 50] := by
  have evicted : (run step (Benchmark.new ringsProcess 0 0)
      (ringsCalls ++ [.tick .stored 106])).map
      (fun final => (final.windows "BTC").rollingEvictions) = some 1 := by decide +kernel
  have committed : (committedCohorts ringsProcess 0 0 (ringsCalls ++ [.tick .stored 106])
      "BTC").map CommittedCohort.committedAt = [5, 2, 25, 50] := by decide +kernel
  obtain ⟨final, executed, evictions⟩ := Option.map_eq_some_iff.mp evicted
  obtain ⟨counted, cohorts, _, _, coverage, _⟩ :=
    rings_are_rolling_windows executed rfl (by decide +kernel) "BTC"
  refine ⟨final, executed, committed, ?_, evictions, ?_, ?_⟩
  · rw [← counted, ← List.length_map CommittedCohort.committedAt, committed]
    rfl
  · have stamps := congrArg (List.map CommittedCohort.committedAt) cohorts
    rw [List.map_map, inOrder, List.mergeSort_of_pairwise (by decide +kernel)] at stamps
    exact stamps.trans (by decide +kernel)
  · rw [coverage, inOrder, List.mergeSort_of_pairwise (by decide +kernel)]
    decide +kernel

end Benchmark

end MarketBenchmark
