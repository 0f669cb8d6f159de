import MarketBenchmark.Benchmark.Registration
import MarketBenchmark.Benchmark.Sealing

/-!
# A process with one source

A single source has nobody to wait for, so the first observation of a base
settles it and leaves a tombstone.  The base of a trade, a transaction or a
round tells its observations apart.  The base of a book is its timestamp alone:
another revision of the same millisecond comes too late for its own base.
-/

namespace MarketBenchmark

open Foundation.HashMaps Foundation.TimedRing Foundation.Runs

namespace Benchmark

variable {order : IterationOrder} {benchmark : Benchmark} {event : MarketEvent}

/-- What a commit on arrival is: the observation is a complete cohort of its own. -/
structure CommitsAlone (before after : Benchmark) (event : MarketEvent) : Prop where
  nothingPending : ∀ base, base ∉ after.pending
  ring : ∃ cohort : CommittedCohort,
    (after.windows event.key.coin).cohorts =
      insertCapped CommittedCohort.committedAt before.config.maxRollingCohorts
        (before.windows event.key.coin).cohorts cohort ∧
    cohort.committedAt = event.received ∧ cohort.eventMs = event.key.eventMs ∧
    cohort.origin = event.key ∧
    cohort.latencyMs event.provider = event.receivedWallMs - event.key.eventMs
  complete : (after.windows event.key.coin).completeCohorts =
    (before.windows event.key.coin).completeCohorts + 1
  counted : after.counters event.key.coin event.provider =
    before.counters event.key.coin event.provider + { observed := 1, matched := 1 }

/-! ## The candidate of one arrival -/

/-- The base of one arrival. -/
def loneBase (event : MarketEvent) : PendingBase where
  firstObserved := event.received
  candidates := (∅ : HashMap ContentKey PendingCandidate).insert event.key.content
    (withArrival (PendingCandidate.new event.received) event)

theorem heldBase_of_absent (absent : event.key.base ∉ benchmark.pending) :
    benchmark.heldBase event (withArrival (benchmark.openedCandidate event) event) =
      loneBase event := by
  have opened : benchmark.openedBase event = PendingBase.new event.received := by
    unfold openedBase
    rw [AList.lookup_eq_none.mpr absent]
    simp [PendingBase.new]
  have candidate : benchmark.openedCandidate event = PendingCandidate.new event.received := by
    unfold openedCandidate
    rw [opened]
    simp [PendingBase.new, PendingCandidate.new]
  unfold heldBase
  rw [opened, candidate]
  rfl

variable {config : BenchmarkConfig}

/-- The candidate of one arrival at the settlement. -/
def loneCandidate (config : BenchmarkConfig) (event : MarketEvent) : PendingCandidate :=
  (withArrival (PendingCandidate.new event.received) event).withoutLate config.providers
    event.received config.cohortTimeout

theorem entries_loneBase (event : MarketEvent) : (loneBase event).candidates.entries =
    [⟨event.key.content, withArrival (PendingCandidate.new event.received) event⟩] :=
  AList.entries_insert_of_notMem (AList.notMem_empty _)

theorem admitted_lone (order : IterationOrder) (config : BenchmarkConfig)
    (event : MarketEvent) :
    admitted order config (loneBase event) = [(event.key.content, loneCandidate config event)] := by
  unfold admitted
  rw [entries_loneBase, List.perm_singleton.mp (order.perm _)]
  rfl

theorem withArrival_new (event : MarketEvent) :
    (withArrival (PendingCandidate.new event.received) event).arrivals event.provider =
      some { received := event.received, receivedWallMs := event.receivedWallMs } :=
  Function.update_self _ _ _

/-- The deadline of a base never passes by its first arrival, unless there is no time at all. -/
theorem arrivedAfterDeadline_lone (event : MarketEvent) (cohortTimeout : Nat) :
    (withArrival (PendingCandidate.new event.received) event).arrivedAfterDeadline event.received
      cohortTimeout event.provider = decide (cohortTimeout ≤ 0) := by
  unfold PendingCandidate.arrivedAfterDeadline
  rw [withArrival_new]
  dsimp only
  rw [Nat.sub_self]

theorem loneCandidate_arrival (single : config.providers = [event.provider]) :
    (loneCandidate config event).arrivals event.provider =
      if 0 < config.cohortTimeout then
        some { received := event.received, receivedWallMs := event.receivedWallMs }
      else none := by
  unfold loneCandidate PendingCandidate.withoutLate
  dsimp only
  rw [arrivedAfterDeadline_lone, withArrival_new, single]
  by_cases positive : 0 < config.cohortTimeout
  · rw [if_pos positive, if_neg fun both => Nat.not_le.mpr positive (of_decide_eq_true both.2)]
  · rw [if_neg positive,
      if_pos ⟨List.mem_singleton_self _, decide_eq_true (Nat.le_of_not_lt positive)⟩]

theorem isReference_lone (single : config.providers = [event.provider]) :
    (loneCandidate config event).isReference config =
      (loneCandidate config event).hasArrival event.provider := by
  have reference : config.referenceProvider = event.provider := by
    have member := config.referenceProvider_mem
    rw [single] at member
    exact List.mem_singleton.mp member
  unfold PendingCandidate.isReference
  rw [reference, single]
  simp

theorem canonical_lone (order : IterationOrder) (single : config.providers = [event.provider]) :
    canonical order config (loneBase event) =
      if 0 < config.cohortTimeout then [(event.key.content, loneCandidate config event)]
      else [] := by
  unfold canonical
  rw [admitted_lone]
  have kept := isReference_lone single
  unfold PendingCandidate.hasArrival at kept
  rw [loneCandidate_arrival single] at kept
  by_cases positive : 0 < config.cohortTimeout
  · rw [if_pos positive] at kept ⊢
    exact List.filter_cons_of_pos kept
  · rw [if_neg positive] at kept ⊢
    exact List.filter_cons_of_neg (by rw [kept]; decide)

/-! ## One observation -/

/-- The benchmark that is about to settle the base of a first observation. -/
def holding (benchmark : Benchmark) (event : MarketEvent) : Benchmark :=
  (benchmark.bump event.key.coin event.provider { observed := 1 }).withPending event.key.base
    (loneBase event)

/-- The first observation of a base settles it, an observation of a sealed base is set aside. -/
theorem recordAccepted_single (single : benchmark.config.providers = [event.provider])
    (idle : ∀ base, base ∉ benchmark.pending) :
    benchmark.recordAccepted order event =
      if event.key.base ∈ benchmark.settledBases then
        (benchmark.bump event.key.coin event.provider { observed := 1 }).recordSealed event
      else (benchmark.holding event).settle order event.key.base event.received false := by
  have absent : (benchmark.bump event.key.coin event.provider { observed := 1 }).pending.lookup
      event.key.base = none := AList.lookup_eq_none.mpr (idle event.key.base)
  have still : (benchmark.bump event.key.coin event.provider { observed := 1 }).sealOverdue order
      event.key.base event.received =
      benchmark.bump event.key.coin event.provider { observed := 1 } := by
    unfold sealOverdue
    rw [absent]
  have roomy : (benchmark.bump event.key.coin event.provider { observed := 1 }).makeRoom order
      event.key.base event.received =
      benchmark.bump event.key.coin event.provider { observed := 1 } := by
    rcases makeRoom_cases order (benchmark.bump event.key.coin event.provider { observed := 1 })
      event.key.base event.received with same | ⟨oldest, _, present, _⟩
    · exact same
    · exact absurd present (idle oldest)
  have one : (benchmark.bump event.key.coin event.provider
      { observed := 1 }).config.providers.length = 1 := by
    show benchmark.config.providers.length = 1
    rw [single]
    rfl
  have lone : event.key.base ∉
      (benchmark.bump event.key.coin event.provider { observed := 1 }).pending :=
    idle event.key.base
  unfold recordAccepted
  dsimp only
  rw [still, roomy, store_of_absent lone, if_pos one, heldBase_of_absent lone]
  rfl

variable (order) in
theorem settle_holding (single : benchmark.config.providers = [event.provider]) :
    (benchmark.holding event).settle order event.key.base event.received false =
      if 0 < benchmark.config.cohortTimeout then
        ((benchmark.holding event).sealBase order event.key.base (loneBase event) event.received
          false).finalizeCandidate order event.key (loneCandidate benchmark.config event)
            event.received (noncanonicalSeen benchmark.config
              [(event.key.content, loneCandidate benchmark.config event)])
      else (benchmark.holding event).sealBase order event.key.base (loneBase event) event.received
        false := by
  have found : (benchmark.holding event).pending.lookup event.key.base = some (loneBase event) :=
    withPending_lookup _ _ _
  have sameConfig : (benchmark.holding event).config = benchmark.config := rfl
  rw [settle_of_lookup order _ event.received false found, sameConfig,
    canonical_lone order single, admitted_lone]
  by_cases positive : 0 < benchmark.config.cohortTimeout
  · rw [if_pos positive, if_pos positive]
    rfl
  · rw [if_neg positive, if_neg positive]
    rfl

theorem complete_lone (single : benchmark.config.providers = [event.provider])
    (positive : 0 < benchmark.config.cohortTimeout) :
    (loneCandidate benchmark.config event).complete benchmark.config.providers = true ∧
      (loneCandidate benchmark.config event).latestArrival benchmark.config.providers =
        event.received := by
  have arrival := loneCandidate_arrival single
  rw [if_pos positive] at arrival
  constructor
  · unfold PendingCandidate.complete
    rw [single, List.all_cons, List.all_nil, Bool.and_true, PendingCandidate.hasArrival, arrival]
    rfl
  · unfold PendingCandidate.latestArrival
    rw [single, List.filterMap_cons_some arrival]
    exact Nat.max_zero _

/-- The settlement counts the lone arrival as matched. -/
theorem settledIncrement_lone (seen : Provider → Bool)
    (single : config.providers = [event.provider]) (positive : 0 < config.cohortTimeout) :
    settledIncrement config event.received seen
      (withArrival (PendingCandidate.new event.received) event) event.provider =
      { matched := 1 } := by
  have arrived : (loneCandidate config event).hasArrival event.provider = true := by
    unfold PendingCandidate.hasArrival
    rw [loneCandidate_arrival single, if_pos positive]
    rfl
  have intime : ¬decide (config.cohortTimeout ≤ 0) = true :=
    fun passed => Nat.not_le.mpr positive (of_decide_eq_true passed)
  unfold settledIncrement
  dsimp only
  rw [arrivedAfterDeadline_lone, if_neg intime, zero_add]
  change (if (loneCandidate config event).isReference config = true then
    (outcomeOf (loneCandidate config event) seen event.provider).increment else _) = _
  rw [isReference_lone single, if_pos arrived, outcomeOf, if_pos arrived]
  rfl

/-- With time before the deadline, the first observation of a base is committed on arrival. -/
theorem commitsAlone_of_fresh (single : benchmark.config.providers = [event.provider])
    (idle : ∀ base, base ∉ benchmark.pending) (positive : 0 < benchmark.config.cohortTimeout) :
    CommitsAlone benchmark
      ((benchmark.holding event).settle order event.key.base event.received false) event := by
  obtain ⟨complete, latest⟩ := complete_lone single positive
  have arrival := loneCandidate_arrival single
  rw [if_pos positive] at arrival
  have active : event.provider ∈ benchmark.config.providers := by
    rw [single]
    exact List.mem_singleton_self _
  have part : ∀ {Part : Type} (part : CoinWindow → Part),
      (∀ window at_, part (CoinWindow.evictState window at_) = part window) →
      part (((benchmark.holding event).settle order event.key.base event.received false).windows
        event.key.coin) =
      part (sampleWindow benchmark.config event.key (loneCandidate benchmark.config event)
        event.received (noncanonicalSeen benchmark.config
          [(event.key.content, loneCandidate benchmark.config event)])
        (((benchmark.holding event).sealBase order event.key.base (loneBase event)
          event.received false).windows event.key.coin)) := by
    intro Part part untouched
    rw [settle_holding order single, if_pos positive,
      finalizeCandidate_windows order _ _ _ _ _ part untouched, if_pos rfl, sealBase_config]
    rfl
  have kept : ∀ {Part : Type} (part : CoinWindow → Part),
      (∀ window at_, part (CoinWindow.evictState window at_) = part window) →
      part (((benchmark.holding event).sealBase order event.key.base (loneBase event)
        event.received false).windows event.key.coin) =
      part (benchmark.windows event.key.coin) :=
    fun part untouched => sealBase_windows order _ _ _ _ _ part untouched event.key.coin
  refine ⟨fun base present => ?_, ⟨cohortEntry benchmark.config event.key
    (loneCandidate benchmark.config event)
    ((benchmark.windows event.key.coin).completeCohorts + 1), ?_, latest, rfl, rfl, ?_⟩, ?_, ?_⟩
  · rw [settle_pending] at present
    obtain ⟨other, inserted⟩ := AList.mem_erase.mp present
    rcases (AList.mem_insert _).mp inserted with same | before
    · exact other same
    · exact idle base before
  · rw [part CoinWindow.cohorts fun _ _ => rfl, sampleWindow_cohorts, if_pos complete,
      kept CoinWindow.cohorts fun _ _ => rfl, kept CoinWindow.completeCohorts fun _ _ => rfl]
  · show latencyRow _ _ _ _ = _
    unfold latencyRow
    rw [if_pos active, arrival]
  · rw [part CoinWindow.completeCohorts fun _ _ => rfl, sampleWindow_completeCohorts,
      if_pos complete, kept CoinWindow.completeCohorts fun _ _ => rfl]
  · have stored : (loneBase event).candidates.entries.map (fun entry =>
        settledIncrement benchmark.config (loneBase event).firstObserved
          (noncanonicalSeen benchmark.config
            (admitted order benchmark.config (loneBase event))) entry.2 event.provider) =
        [{ matched := 1 }] := by
      rw [entries_loneBase, List.map_singleton]
      exact congrArg (fun counted => [counted]) (settledIncrement_lone _ single positive)
    have sameConfig : (benchmark.holding event).config = benchmark.config := rfl
    rw [settle_counters order (benchmark.holding event) event.received false
      (withPending_lookup _ _ _), sameConfig, if_pos ⟨rfl, active⟩, stored, List.sum_singleton]
    have observed : (benchmark.holding event).counters event.key.coin event.provider =
        benchmark.counters event.key.coin event.provider + { observed := 1 } := by
      refine (bump_counters benchmark event.key.coin event.provider _ _ _).trans ?_
      rw [if_pos ⟨rfl, rfl⟩]
    rw [observed, add_assoc]
    rfl

/-- Without time before the deadline, the first observation of a base is not committed. -/
theorem not_commitsAlone_of_untimed (single : benchmark.config.providers = [event.provider])
    (untimed : ¬0 < benchmark.config.cohortTimeout) :
    ¬CommitsAlone benchmark
      ((benchmark.holding event).settle order event.key.base event.received false) event := by
  intro alone
  have complete := alone.complete
  rw [settle_holding order single, if_neg untimed,
    sealBase_windows order _ _ _ _ _ CoinWindow.completeCohorts fun _ _ => rfl] at complete
  exact absurd complete (Nat.ne_of_lt (Nat.lt_succ_self _))

/-- One observation is committed alone exactly when its base is not sealed. -/
theorem commitsAlone_recordAccepted_iff
    (single : benchmark.config.providers = [event.provider])
    (idle : ∀ base, base ∉ benchmark.pending) :
    CommitsAlone benchmark (benchmark.recordAccepted order event) event ↔
      event.key.base ∉ benchmark.settledBases ∧ 0 < benchmark.config.cohortTimeout := by
  rw [recordAccepted_single single idle]
  by_cases seen : event.key.base ∈ benchmark.settledBases
  · rw [if_pos seen]
    constructor
    · intro alone
      exact absurd alone.complete (Nat.ne_of_lt (Nat.lt_succ_self _))
    · exact fun both => absurd seen both.1
  · rw [if_neg seen]
    constructor
    · exact fun alone => ⟨seen, Decidable.by_contra fun untimed =>
        not_commitsAlone_of_untimed single untimed alone⟩
    · exact fun both => commitsAlone_of_fresh single idle both.2

/-- One observation seals its base and no other. -/
theorem mem_settledBases_recordAccepted
    (single : benchmark.config.providers = [event.provider])
    (idle : ∀ base, base ∉ benchmark.pending)
    (unevicted : (benchmark.recordAccepted order event).Unevicted) (base : BaseKey) :
    base ∈ (benchmark.recordAccepted order event).settledBases ↔
      base ∈ benchmark.settledBases ∨ base = event.key.base := by
  rw [recordAccepted_single single idle] at unevicted ⊢
  by_cases seen : event.key.base ∈ benchmark.settledBases
  · rw [if_pos seen]
    constructor
    · exact fun member => Or.inl member
    · rintro (member | rfl)
      · exact member
      · exact seen
  · rw [if_neg seen] at unevicted ⊢
    have found : (benchmark.holding event).pending.lookup event.key.base =
        some (loneBase event) := withPending_lookup _ _ _
    rw [(settle_of_unevicted found unevicted).2, AList.mem_insert, or_comm]
    rfl

/-! ## Sequences of observations -/

/-- The call that records an observation. -/
def observe (observation : IterationOrder × MarketEvent) : Call :=
  .record observation.1 (.market observation.2)

/-- The base of a transaction or a round is all there is to it. -/
def InBase : ContentKey → Prop
  | .mempool _ | .peering _ => True
  | _ => False

/-- The base of an observation. -/
def observedBase (observation : IterationOrder × MarketEvent) : BaseKey :=
  observation.2.key.base

/-- An observation of the source that the benchmark accepts. -/
structure ValidFrom (config : BenchmarkConfig) (source : Provider)
    (observation : IterationOrder × MarketEvent) : Prop where
  provider : observation.2.provider = source
  coin : observation.2.key.coin ∈ config.coins
  stamped : 0 < observation.2.key.eventMs
  notAhead : observation.2.key.eventMs ≤ observation.2.receivedWallMs

variable {source : Provider}

theorem step_observe {observation : IterationOrder × MarketEvent}
    (single : benchmark.config.providers = [source])
    (valid : ValidFrom benchmark.config source observation) :
    benchmark.step (observe observation) =
      some (benchmark.recordAccepted observation.1 observation.2) := by
  have active : observation.2.provider ∈ benchmark.config.providers := by
    rw [single, valid.provider]
    exact List.mem_singleton_self _
  exact recordMarket_of_accepted _ benchmark valid.coin ⟨active, valid.stamped, valid.notAhead⟩

/-- Each observation is committed alone, in the state that the earlier ones have left. -/
def CommitsEach (origin : Benchmark) (observations : List (IterationOrder × MarketEvent)) :
    Prop :=
  ∀ earlier current later, observations = earlier ++ current :: later →
    ∀ before after, run step origin (earlier.map observe) = some before →
      before.step (observe current) = some after → CommitsAlone before after current.2

section Sequence

variable {startedAt startedWallMs : Nat} {observations : List (IterationOrder × MarketEvent)}
  {final : Benchmark}

theorem run_single (single : config.providers = [source])
    (executed : run step (Benchmark.new config startedAt startedWallMs)
      (observations.map observe) = some final) :
    final.config = config ∧ ∀ base, base ∉ final.pending := by
  have sameConfig : final.config = config := run_config executed
  refine ⟨sameConfig, run_preserves Solo (fun _ _ _ held stepped => held.step stepped)
    (Solo.new config startedAt startedWallMs) executed ?_⟩
  rw [sameConfig, single]
  rfl

/-- The tombstones are the bases of the observations. -/
theorem mem_settledBases_run (single : config.providers = [source])
    (valid : ∀ observation ∈ observations, ValidFrom config source observation)
    (executed : run step (Benchmark.new config startedAt startedWallMs)
      (observations.map observe) = some final) (unevicted : final.Unevicted) (base : BaseKey) :
    base ∈ final.settledBases ↔ base ∈ observations.map observedBase := by
  induction observations using List.reverseRecOn generalizing final with
  | nil =>
      cases executed
      exact iff_of_false (AList.notMem_empty base) List.not_mem_nil
  | append_singleton earlier current ih =>
      rw [List.map_append, List.map_singleton] at executed
      obtain ⟨before, reached, stepped⟩ := run_concat_eq_some executed
      obtain ⟨sameConfig, idle⟩ := run_single single reached
      have here : ValidFrom before.config source current := by
        rw [sameConfig]
        exact valid current (List.mem_append_right _ (List.mem_singleton_self _))
      have source_of : before.config.providers = [current.2.provider] := by
        rw [sameConfig, single, here.provider]
      have advanced := evictionsLe_step stepped
      rw [step_observe (by rw [sameConfig, single]) here] at stepped
      obtain rfl := Option.some.inj stepped
      rw [mem_settledBases_recordAccepted source_of idle unevicted, List.map_append,
        List.map_singleton, List.mem_append, List.mem_singleton,
        ih (fun observation member => valid observation (List.mem_append_left _ member)) reached
          (unevicted.of_le advanced)]
      rfl

/-- An observation of the run is committed alone exactly when no earlier one has its base. -/
theorem commitsAlone_observed_iff {earlier later : List (IterationOrder × MarketEvent)}
    {current : IterationOrder × MarketEvent} {before after : Benchmark}
    (single : config.providers = [source])
    (valid : ∀ observation ∈ observations, ValidFrom config source observation)
    (split : observations = earlier ++ current :: later)
    (reached : run step (Benchmark.new config startedAt startedWallMs)
      (earlier.map observe) = some before) (unevicted : before.Unevicted)
    (stepped : before.step (observe current) = some after) :
    CommitsAlone before after current.2 ↔
      observedBase current ∉ earlier.map observedBase ∧ 0 < config.cohortTimeout := by
  subst split
  obtain ⟨sameConfig, idle⟩ := run_single single reached
  have here : ValidFrom before.config source current := by
    rw [sameConfig]
    exact valid current (List.mem_append_right _ List.mem_cons_self)
  have alone : before.config.providers = [current.2.provider] := by
    rw [sameConfig, single, here.provider]
  rw [step_observe (by rw [sameConfig, single]) here] at stepped
  obtain rfl := Option.some.inj stepped
  rw [commitsAlone_recordAccepted_iff alone idle, sameConfig, ← mem_settledBases_run single
    (fun observation member => valid observation (List.mem_append_left _ member)) reached unevicted]
  rfl

theorem commitsEach_iff (single : config.providers = [source])
    (valid : ∀ observation ∈ observations, ValidFrom config source observation)
    (executed : run step (Benchmark.new config startedAt startedWallMs)
      (observations.map observe) = some final) (unevicted : final.Unevicted) :
    CommitsEach (Benchmark.new config startedAt startedWallMs) observations ↔
      ∀ earlier current later, observations = earlier ++ current :: later →
        observedBase current ∉ earlier.map observedBase ∧ 0 < config.cohortTimeout := by
  have passes : ∀ earlier current later, observations = earlier ++ current :: later →
      ∃ before after, run step (Benchmark.new config startedAt startedWallMs)
        (earlier.map observe) = some before ∧ before.step (observe current) = some after ∧
        before.Unevicted := by
    rintro earlier current later rfl
    rw [List.map_append, List.map_cons] at executed
    obtain ⟨before, reached, rest⟩ := run_append_eq_some executed
    have unevictedBefore := unevicted.of_le (evictionsLe_run rest)
    rw [run_cons] at rest
    obtain ⟨after, stepped, _⟩ := Option.bind_eq_some_iff.mp rest
    exact ⟨before, after, reached, stepped, unevictedBefore⟩
  constructor
  · intro each earlier current later split
    obtain ⟨before, after, reached, stepped, unevictedBefore⟩ := passes earlier current later split
    exact (commitsAlone_observed_iff single valid split reached unevictedBefore stepped).mp
      (each earlier current later split before after reached stepped)
  · intro fresh earlier current later split before after reached stepped
    obtain ⟨same, _, reachedSame, _, unevictedBefore⟩ := passes earlier current later split
    cases Option.some.inj (reached.symm.trans reachedSame)
    exact (commitsAlone_observed_iff single valid split reached unevictedBefore stepped).mpr
      (fresh earlier current later split)

/-- Distinct transactions or rounds have distinct bases. -/
theorem key_eq_of_base {first second : EventKey} (firstInBase : InBase first.content)
    (secondInBase : InBase second.content) (same : first.base = second.base) :
    first = second := by
  refine EventKey.eq_of_base same ?_
  have hashes := congrArg BaseKey.mempoolTxHash same
  have rounds := congrArg BaseKey.peeringRound same
  obtain ⟨coin, eventMs, content⟩ := first
  obtain ⟨otherCoin, otherMs, other⟩ := second
  cases content with
  | bbo | l2 | trade => exact firstInBase.elim
  | mempool txHash =>
      cases other with
      | bbo | l2 | trade => exact secondInBase.elim
      | mempool otherHash => exact congrArg ContentKey.mempool (Option.some.inj hashes)
      | peering otherRound => exact absurd hashes nofun
  | peering round =>
      cases other with
      | bbo | l2 | trade => exact secondInBase.elim
      | mempool otherHash => exact absurd hashes nofun
      | peering otherRound => exact congrArg ContentKey.peering (Option.some.inj rounds)

/--
A process of one source takes one sample per event exactly when no two observations share a base
and there is time before the deadline.  Distinct transactions and distinct rounds share no base;
revisions of a book in one millisecond do.
-/
theorem one_sample_per_event_iff (single : config.providers = [source])
    (valid : ∀ observation ∈ observations, ValidFrom config source observation)
    (executed : run step (Benchmark.new config startedAt startedWallMs)
      (observations.map observe) = some final) (unevicted : final.Unevicted) :
    (CommitsEach (Benchmark.new config startedAt startedWallMs) observations ↔
      (observations.map observedBase).Nodup ∧ (observations = [] ∨ 0 < config.cohortTimeout)) ∧
    ((∀ observation ∈ observations, InBase observation.2.key.content) →
      (observations.map fun observation => observation.2.key).Nodup →
      (observations.map observedBase).Nodup) := by
  constructor
  · rw [commitsEach_iff single valid executed unevicted, nodup_map_iff_splits]
    constructor
    · intro fresh
      refine ⟨fun earlier current later split => (fresh earlier current later split).1, ?_⟩
      cases observations with
      | nil => exact Or.inl rfl
      | cons first rest => exact Or.inr (fresh [] first rest rfl).2
    · rintro ⟨distinct, timed⟩ earlier current later split
      refine ⟨distinct earlier current later split, timed.resolve_left ?_⟩
      rw [split]
      exact List.append_ne_nil_of_right_ne_nil earlier (List.cons_ne_nil current later)
  · intro inBase distinct
    rw [show observations.map observedBase =
      (observations.map fun observation => observation.2.key).map EventKey.base from
        (List.map_map ..).symm]
    refine distinct.map_on ?_
    intro first firstMember second secondMember same
    obtain ⟨one, oneMember, rfl⟩ := List.mem_map.mp firstMember
    obtain ⟨other, otherMember, rfl⟩ := List.mem_map.mp secondMember
    exact key_eq_of_base (inBase one oneMember) (inBase other otherMember) same

end Sequence

/-- A mempool process of one source. -/
def bundleProcess : BenchmarkConfig :=
  { BenchmarkConfig.production .mempool ["BTC"] "aws" "nrt" "nrt" "aws-nrt-01" "run" with
    rollingWindow := 1000
    cohortTimeout := 10 }

/-- Two transactions of one millisecond. -/
def bundles : List (IterationOrder × MarketEvent) :=
  ["0xa", "0xb"].map fun txHash => (.stored,
    { provider := .quickNodeGrpc
      key := { coin := "BTC", eventMs := 1, content := .mempool txHash }
      received := 5
      receivedWallMs := 6 })

/-- A benchmark of one coin has evicted nothing when it has evicted nothing of that coin. -/
theorem unevicted_of_one_coin {calls : List Call} {coin : String} (oneCoin : config.coins = [coin])
    {startedAt startedWallMs : Nat} {final : Benchmark}
    (executed : run step (Benchmark.new config startedAt startedWallMs) calls = some final)
    (kept : (final.windows coin).stateEvictions = 0) : final.Unevicted := by
  intro other
  by_cases same : other = coin
  · rw [same]
    exact kept
  · have sameConfig : final.config = config := run_config executed
    have foreign : other ∉ final.config.coins := by
      rw [sameConfig, oneCoin]
      exact fun member => same (List.mem_singleton.mp member)
    rw [(registered_run executed).windows other foreign]

theorem bundles_committed_each :
    CommitsEach (Benchmark.new bundleProcess 0 0) bundles := by
  have kept : (run step (Benchmark.new bundleProcess 0 0) (bundles.map observe)).map
      (fun final => (final.windows "BTC").stateEvictions) = some 0 := by decide
  obtain ⟨final, executed, kept⟩ := Option.map_eq_some_iff.mp kept
  have valid : ∀ observation ∈ bundles, ValidFrom bundleProcess .quickNodeGrpc observation := by
    intro observation member
    obtain ⟨txHash, _, rfl⟩ := List.mem_map.mp member
    exact ⟨rfl, List.mem_singleton_self _, Nat.one_pos, Nat.le_add_left 1 5⟩
  exact (one_sample_per_event_iff rfl valid executed
    (unevicted_of_one_coin rfl executed kept)).1.mpr ⟨by decide, Or.inr (by decide)⟩

/-! ## Two revisions of one millisecond on the box -/

/-- The book process on the box reads one source. -/
def vpcBookProcess : BenchmarkConfig :=
  { bookProcess with vpcLocal := true }

/-- Two revisions of the book of one millisecond, as the stream delivers them. -/
def revisions : List (IterationOrder × MarketEvent) :=
  [(.stored, quote .quickNodeVpc "1" 5), (.stored, quote .quickNodeVpc "2" 6)]

theorem revisions_valid :
    ∀ observation ∈ revisions, ValidFrom vpcBookProcess .quickNodeVpc observation := by
  intro observation member
  rcases List.mem_cons.mp member with rfl | second
  · exact ⟨rfl, List.mem_singleton_self _, by decide, by decide⟩
  · rw [List.mem_singleton.mp second]
    exact ⟨rfl, List.mem_singleton_self _, by decide, by decide⟩

/-- The second revision is late for the base that the first one has sealed. -/
theorem second_revision_late :
    vpcBookProcess.providers = [.quickNodeVpc] ∧
      (∀ observation ∈ revisions, ValidFrom vpcBookProcess .quickNodeVpc observation) ∧
      (revisions.map fun observation => observation.2.key).Nodup ∧
      ∃ final, run step (Benchmark.new vpcBookProcess 0 0) (revisions.map observe) = some final ∧
        final.Unevicted ∧ (final.windows "BTC").completeCohorts = 1 ∧
        final.counters "BTC" .quickNodeVpc = { observed := 2, matched := 1, late := 1 } ∧
        ¬CommitsEach (Benchmark.new vpcBookProcess 0 0) revisions := by
  have shown : (run step (Benchmark.new vpcBookProcess 0 0) (revisions.map observe)).map
      (fun final => ((final.windows "BTC").stateEvictions,
        (final.windows "BTC").completeCohorts, final.counters "BTC" .quickNodeVpc)) =
      some (0, 1, { observed := 2, matched := 1, late := 1 }) := by decide
  obtain ⟨final, executed, parts⟩ := Option.map_eq_some_iff.mp shown
  obtain ⟨kept, rest⟩ := Prod.mk.inj parts
  obtain ⟨complete, counted⟩ := Prod.mk.inj rest
  have unevicted := unevicted_of_one_coin rfl executed kept
  refine ⟨rfl, revisions_valid, by decide, final, executed, unevicted, complete, counted, ?_⟩
  rw [commitsEach_iff rfl revisions_valid executed unevicted]
  intro fresh
  exact (fresh [(.stored, quote .quickNodeVpc "1" 5)] (.stored, quote .quickNodeVpc "2" 6) []
    rfl).1 (List.mem_singleton_self _)

end Benchmark

end MarketBenchmark
