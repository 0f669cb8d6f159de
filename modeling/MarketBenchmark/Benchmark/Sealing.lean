import MarketBenchmark.Benchmark.Calls

/-!
# Sealed bases

A base is pending or sealed, never both; its candidates stand for its own events;
a process with one provider keeps nothing pending; and every loss of a tombstone
or of a pending base is counted as an eviction.
-/

namespace MarketBenchmark

open Foundation.HashMaps
open Foundation.Runs

namespace Benchmark

variable {order : IterationOrder} {benchmark : Benchmark}

/-! ## Pending and sealed bases -/

/-- No base is pending and sealed at once. -/
def Apart (benchmark : Benchmark) : Prop :=
  ∀ base, base ∈ benchmark.pending → base ∉ benchmark.settledBases

/-- A settlement seals at most the base it settles. -/
theorem mem_settledBases_settle {key base : BaseKey} {now : Nat} {evicted : Bool}
    (member : base ∈ (benchmark.settle order key now evicted).settledBases) :
    (base = key ∧ key ∈ benchmark.pending) ∨ base ∈ benchmark.settledBases := by
  cases found : benchmark.pending.lookup key with
  | none =>
      rw [settle_of_lookup_none order benchmark now evicted found] at member
      exact Or.inr member
  | some pending =>
      rw [settle_settledBases order benchmark key now evicted found] at member
      rcases mem_insertSettledBase order benchmark member with same | before
      · exact Or.inl ⟨same, HashMap.mem_of_lookup found⟩
      · exact Or.inr before

theorem Apart.settle (apart : benchmark.Apart) (key : BaseKey) (now : Nat)
    (evicted : Bool) : (benchmark.settle order key now evicted).Apart := by
  intro base isPending isSealed
  rw [settle_pending] at isPending
  obtain ⟨different, wasPending⟩ := AList.mem_erase.mp isPending
  rcases mem_settledBases_settle isSealed with ⟨same, _⟩ | wasSealed
  · exact different same
  · exact apart base wasPending wasSealed

theorem Apart.withPending (apart : benchmark.Apart) {base : BaseKey} (cohort : PendingBase)
    (unsealed : base ∉ benchmark.settledBases) : (benchmark.withPending base cohort).Apart :=
  HashMap.forall_mem_insert unsealed apart

theorem Apart.store {event : MarketEvent} (apart : benchmark.Apart)
    (unsealed : event.key.base ∉ benchmark.settledBases) :
    (benchmark.store order event).Apart := by
  rw [store_eq]
  split_ifs
  · exact apart.withPending _ unsealed
  · exact apart.withPending _ unsealed
  · exact (apart.withPending _ unsealed).settle event.key.base event.received false
  · exact apart.withPending _ unsealed

theorem Apart.recordAccepted {event : MarketEvent} (apart : benchmark.Apart) :
    (benchmark.recordAccepted order event).Apart := by
  refine recordAccepted_induction order benchmark Apart Apart apart ?_ ?_ ?_ ?_
  · intro state pending _ _ _ held
    exact held.settle event.key.base event.received false
  · intro state oldest _ _ _ _ held
    exact held.settle oldest event.received true
  · exact fun _ _ _ held => held
  · intro state _ unsealed _ held
    exact held.store unsealed

theorem Apart.prune (apart : benchmark.Apart) (now : Nat) :
    (benchmark.prune now).Apart := by
  intro base isPending isSealed
  obtain ⟨settledAt, found, _⟩ := HashMap.mem_retain.mp isSealed
  exact apart base isPending (HashMap.mem_of_lookup found)

theorem Apart.step {call : Call} {after : Benchmark} (apart : benchmark.Apart)
    (stepped : benchmark.step call = some after) : after.Apart :=
  step_induction Apart stepped apart (fun _ _ _ _ _ => apart) (fun _ _ _ _ _ _ _ _ => apart)
    (fun _ _ _ _ _ => apart.recordAccepted)
    (fun _ _ key now _ _ _ held => held.settle key now false)
    (fun _ now _ _ held => held.prune now) (fun _ _ held => held) (fun _ _ _ _ => apart)

theorem Apart.new (config : BenchmarkConfig) (startedAt : Nat) (startedWallMs : Nat) :
    (Benchmark.new config startedAt startedWallMs).Apart :=
  fun base isPending => (AList.notMem_empty base isPending).elim

theorem Apart.run {config : BenchmarkConfig} {startedAt : Nat} {startedWallMs : Nat}
    {calls : List Call} {final : Benchmark}
    (executed : run Benchmark.step (Benchmark.new config startedAt startedWallMs) calls =
      some final) : final.Apart :=
  run_preserves Apart (fun _ _ _ held stepped => held.step stepped)
    (Apart.new config startedAt startedWallMs) executed

/-! ## Contents belong to their base -/

/-- Each candidate of a pending base stands for an event of the base. -/
def Keyed (benchmark : Benchmark) : Prop :=
  ∀ base pending, benchmark.pending.lookup base = some pending →
    ∀ content, content ∈ pending.candidates → (eventKey base content).base = base

theorem Keyed.settle (keyed : benchmark.Keyed) (key : BaseKey) (now : Nat) (evicted : Bool) :
    (benchmark.settle order key now evicted).Keyed := by
  intro base pending found
  rw [settle_pending] at found
  exact keyed base pending (HashMap.lookup_erase_eq_some.mp found).2

theorem Keyed.withPending (keyed : benchmark.Keyed) {base : BaseKey} {cohort : PendingBase}
    (own : ∀ content, content ∈ cohort.candidates → (eventKey base content).base = base) :
    (benchmark.withPending base cohort).Keyed := by
  intro other pending found
  rcases HashMap.lookup_insert_eq_some.mp found with ⟨same, sameCohort⟩ | ⟨_, before⟩
  · rw [same, ← sameCohort]
    exact own
  · exact keyed other pending before

theorem Keyed.openedBase (keyed : benchmark.Keyed) (event : MarketEvent) {content : ContentKey}
    (present : content ∈ (benchmark.openedBase event).candidates) :
    (eventKey event.key.base content).base = event.key.base := by
  unfold Benchmark.openedBase at present
  dsimp only at present
  cases found : benchmark.pending.lookup event.key.base with
  | none =>
      rw [found] at present
      exact (AList.notMem_empty content present).elim
  | some pending =>
      rw [found] at present
      exact keyed event.key.base pending found content present

theorem Keyed.heldBase (keyed : benchmark.Keyed) (event : MarketEvent)
    (candidate : PendingCandidate) {content : ContentKey}
    (present : content ∈ (benchmark.heldBase event candidate).candidates) :
    (eventKey event.key.base content).base = event.key.base := by
  rcases (AList.mem_insert _).mp present with same | before
  · rw [same]
    rfl
  · exact keyed.openedBase event before

theorem Keyed.store {event : MarketEvent} (keyed : benchmark.Keyed) :
    (benchmark.store order event).Keyed := by
  rw [store_eq]
  split_ifs
  · exact keyed.withPending fun _ present => keyed.openedBase event present
  · exact keyed.withPending fun _ present => keyed.heldBase event _ present
  · refine Keyed.settle (keyed.withPending fun _ present => ?_) event.key.base event.received false
    exact keyed.heldBase event _ present
  · exact keyed.withPending fun _ present => keyed.heldBase event _ present

theorem Keyed.recordAccepted {event : MarketEvent} (keyed : benchmark.Keyed) :
    (benchmark.recordAccepted order event).Keyed := by
  refine recordAccepted_induction order benchmark Keyed Keyed keyed ?_ ?_ ?_ ?_
  · exact fun _ _ _ _ _ held => held.settle event.key.base event.received false
  · exact fun _ oldest _ _ _ _ held => held.settle oldest event.received true
  · exact fun _ _ _ held => held
  · exact fun _ _ _ _ held => held.store

/-! ## A single source keeps nothing pending -/

/-- A process with one provider settles every base at once. -/
def Solo (benchmark : Benchmark) : Prop :=
  benchmark.config.providers.length = 1 → ∀ base, base ∉ benchmark.pending

theorem Solo.settle (solo : benchmark.Solo) (key : BaseKey) (now : Nat) (evicted : Bool) :
    (benchmark.settle order key now evicted).Solo := by
  intro single base present
  rw [settle_config] at single
  rw [settle_pending] at present
  exact solo single base (AList.mem_erase.mp present).2

/-- A base that is not pending opens without candidates. -/
theorem openedBase_of_absent {event : MarketEvent}
    (absent : event.key.base ∉ benchmark.pending) :
    (benchmark.openedBase event).candidates = ∅ := by
  unfold openedBase
  dsimp only
  rw [AList.lookup_eq_none.mpr absent]
  rfl

theorem openedCandidate_of_absent {event : MarketEvent}
    (absent : event.key.base ∉ benchmark.pending) (provider : Provider) :
    (benchmark.openedCandidate event).arrivals provider = none := by
  unfold openedCandidate
  dsimp only
  rw [openedBase_of_absent absent]
  rfl

/-- The first event of a base is stored; a single source settles it at once. -/
theorem store_of_absent {event : MarketEvent} (absent : event.key.base ∉ benchmark.pending) :
    benchmark.store order event =
      if benchmark.config.providers.length = 1 then
        (benchmark.withPending event.key.base
          (benchmark.heldBase event (withArrival (benchmark.openedCandidate event) event))).settle
            order event.key.base event.received false
      else
        benchmark.withPending event.key.base
          (benchmark.heldBase event (withArrival (benchmark.openedCandidate event) event)) := by
  have roomy : ¬benchmark.Overflowing event := by
    rintro ⟨_, full⟩
    rw [openedBase_of_absent absent] at full
    exact absurd full (by decide)
  have fresh : ¬(benchmark.openedCandidate event).hasArrival event.provider = true := by
    unfold PendingCandidate.hasArrival
    rw [openedCandidate_of_absent absent]
    decide
  rw [store_eq, if_neg roomy, if_neg fresh]

theorem Solo.store {event : MarketEvent} (solo : benchmark.Solo) :
    (benchmark.store order event).Solo := by
  intro single base present
  rw [store_config] at single
  rw [store_of_absent (solo single event.key.base), if_pos single, settle_pending] at present
  obtain ⟨different, inserted⟩ := AList.mem_erase.mp present
  rcases (AList.mem_insert _).mp inserted with same | before
  · exact different same
  · exact solo single base before

theorem Solo.step {call : Call} {after : Benchmark} (solo : benchmark.Solo)
    (stepped : benchmark.step call = some after) : after.Solo := by
  refine step_induction Solo stepped solo (fun _ _ _ _ _ => solo)
    (fun _ _ _ _ _ _ _ _ => solo) ?_ (fun _ _ key now _ _ _ held => held.settle key now false)
    (fun _ _ _ _ held => held) (fun _ _ held => held) (fun _ _ _ _ => solo)
  intro order event _ _ _
  exact recordAccepted_induction order benchmark Solo Solo solo
    (fun _ _ _ _ _ held => held.settle event.key.base event.received false)
    (fun _ oldest _ _ _ _ held => held.settle oldest event.received true)
    (fun _ _ _ held => held) (fun _ _ _ _ held => held.store)

theorem Solo.new (config : BenchmarkConfig) (startedAt startedWallMs : Nat) :
    (Benchmark.new config startedAt startedWallMs).Solo :=
  fun _ base present => (AList.notMem_empty base present).elim

/-! ## Evictions are counted -/

/-- No bounded map of the benchmark ever overflowed. -/
def Unevicted (benchmark : Benchmark) : Prop :=
  ∀ coin, (benchmark.windows coin).stateEvictions = 0

/-- The eviction counts of the first state are kept or advanced. -/
def EvictionsLe (before after : Benchmark) : Prop :=
  ∀ coin, (before.windows coin).stateEvictions ≤ (after.windows coin).stateEvictions

theorem Unevicted.of_le {before after : Benchmark} (unevicted : after.Unevicted)
    (advanced : EvictionsLe before after) : before.Unevicted :=
  fun coin => Nat.le_zero.mp ((unevicted coin) ▸ advanced coin)

theorem evictionsLe_updateWindow (benchmark : Benchmark) (coin : String)
    (change : CoinWindow → CoinWindow)
    (advances : ∀ window, window.stateEvictions ≤ (change window).stateEvictions) :
    EvictionsLe benchmark (benchmark.updateWindow coin change) := by
  intro other
  rw [updateWindow_windows]
  split
  · exact advances _
  · exact Nat.le_refl _

theorem evictionsLe_insertSettledBase (order : IterationOrder) (benchmark : Benchmark)
    (base : BaseKey) (now : Nat) :
    EvictionsLe benchmark (benchmark.insertSettledBase order base now) := by
  rcases insertSettledBase_cases order benchmark base now with same | ⟨oldest, _, _, same⟩
  · rw [same]
    exact fun _ => Nat.le_refl _
  · rw [same]
    exact evictionsLe_updateWindow benchmark oldest.coin (fun window => window.evictState now)
      fun _ => Nat.le_succ _

theorem evictionsLe_insertSettled (order : IterationOrder) (benchmark : Benchmark) (key : EventKey)
    (settled : SettledCohort) :
    EvictionsLe benchmark (benchmark.insertSettled order key settled) := by
  rcases insertSettled_cases order benchmark key settled with same | ⟨oldest, _, _, same⟩
  · rw [same]
    exact fun _ => Nat.le_refl _
  · rw [same]
    exact evictionsLe_updateWindow benchmark oldest.coin
      (fun window => window.evictState settled.settledAt) fun _ => Nat.le_succ _

theorem sampleWindow_stateEvictions (config : BenchmarkConfig) (key : EventKey)
    (candidate : PendingCandidate) (now : Nat) (seen : Provider → Bool) (window : CoinWindow) :
    (sampleWindow config key candidate now seen window).stateEvictions =
      window.stateEvictions := by
  unfold sampleWindow
  dsimp only
  split
  · rw [CoinWindow.insertCohort_stateEvictions, CoinWindow.insertCoverage_stateEvictions]
  · rw [CoinWindow.insertCoverage_stateEvictions]

theorem evictionsLe_finalizeCandidate (order : IterationOrder) (benchmark : Benchmark)
    (key : EventKey) (candidate : PendingCandidate) (now : Nat) (seen : Provider → Bool) :
    EvictionsLe benchmark (benchmark.finalizeCandidate order key candidate now seen) := by
  rw [finalizeCandidate_eq]
  intro coin
  refine Nat.le_trans ?_ (evictionsLe_insertSettled order _ key _ coin)
  exact evictionsLe_updateWindow benchmark key.coin
    (sampleWindow benchmark.config key candidate now seen)
    (fun window => Nat.le_of_eq (sampleWindow_stateEvictions _ _ _ _ _ window).symm) coin

/-- Sealing a base counts its own eviction and those of tombstones. -/
theorem evictionsLe_sealBase (order : IterationOrder) (benchmark : Benchmark) (key : BaseKey)
    (pending : PendingBase) (now : Nat) (evicted : Bool) (coin : String) :
    ((benchmark.insertSettledBase order key now).windows coin).stateEvictions +
        (if evicted = true ∧ coin = key.coin then 1 else 0) =
      ((benchmark.sealBase order key pending now evicted).windows coin).stateEvictions := by
  have windows : (Benchmark.insertSettledBase order
      { benchmark with pending := benchmark.pending.erase key } key now).windows =
      (benchmark.insertSettledBase order key now).windows := by
    unfold insertSettledBase
    dsimp only
    split
    · cases HashMap.oldest order (fun timestamp => timestamp) benchmark.settledBases <;> rfl
    · rfl
  rw [← windows]
  cases evicted with
  | false => rfl
  | true =>
      unfold sealBase
      dsimp only
      rw [if_pos rfl, updateWindow_windows]
      by_cases own : coin = key.coin
      · rw [if_pos ⟨rfl, own⟩, if_pos own]
        rfl
      · rw [if_neg fun both => own both.2, if_neg own]
        rfl

theorem evictionsLe_settle_sealBase (order : IterationOrder) (benchmark : Benchmark) {key : BaseKey}
    {pending : PendingBase} (now : Nat) (evicted : Bool)
    (found : benchmark.pending.lookup key = some pending) :
    EvictionsLe (benchmark.sealBase order key pending now evicted)
      (benchmark.settle order key now evicted) := by
  refine settle_induction order benchmark
    (EvictionsLe (benchmark.sealBase order key pending now evicted)) found ?_ ?_
  · exact fun _ => Nat.le_refl _
  · intro state content candidate _ _ held coin
    exact Nat.le_trans (held coin)
      (evictionsLe_finalizeCandidate order state _ candidate now _ coin)

theorem evictionsLe_settle (order : IterationOrder) (benchmark : Benchmark) (key : BaseKey)
    (now : Nat)
    (evicted : Bool) : EvictionsLe benchmark (benchmark.settle order key now evicted) := by
  cases found : benchmark.pending.lookup key with
  | none =>
      rw [settle_of_lookup_none order benchmark now evicted found]
      exact fun _ => Nat.le_refl _
  | some pending =>
      intro coin
      have inserted := evictionsLe_insertSettledBase order benchmark key now coin
      have sealing := evictionsLe_sealBase order benchmark key pending now evicted coin
      have settled := evictionsLe_settle_sealBase order benchmark now evicted found coin
      omega

/-- A settlement without evictions adds one tombstone and evicts nothing. -/
theorem settle_of_unevicted {key : BaseKey} {pending : PendingBase} {now : Nat} {evicted : Bool}
    (found : benchmark.pending.lookup key = some pending)
    (unevicted : (benchmark.settle order key now evicted).Unevicted) :
    evicted = false ∧ (benchmark.settle order key now evicted).settledBases =
      benchmark.settledBases.insert key now := by
  have settled := evictionsLe_settle_sealBase order benchmark now evicted found
  have sealed := unevicted.of_le settled
  constructor
  · have own := evictionsLe_sealBase order benchmark key pending now evicted key.coin
    rw [sealed key.coin] at own
    cases evicted with
    | false => rfl
    | true =>
        rw [if_pos ⟨rfl, rfl⟩] at own
        exact absurd own (Nat.succ_ne_zero _)
  · rw [settle_settledBases order benchmark key now evicted found]
    rcases insertSettledBase_cases order benchmark key now with same | ⟨oldest, _, _, same⟩
    · rw [same]
    · have own := evictionsLe_sealBase order benchmark key pending now evicted oldest.coin
      have counted : ((benchmark.insertSettledBase order key now).windows
          oldest.coin).stateEvictions = (benchmark.windows oldest.coin).stateEvictions + 1 := by
        rw [same]
        exact congrArg CoinWindow.stateEvictions (if_pos rfl)
      rw [sealed oldest.coin, counted] at own
      omega

theorem EvictionsLe.trans {first second third : Benchmark} (left : EvictionsLe first second)
    (right : EvictionsLe second third) : EvictionsLe first third :=
  fun coin => Nat.le_trans (left coin) (right coin)

theorem evictionsLe_markIntegrityLoss (benchmark : Benchmark) (coin : String) (now : Nat) :
    EvictionsLe benchmark (benchmark.markIntegrityLoss coin now) :=
  evictionsLe_updateWindow benchmark coin (fun window => window.markIntegrityLoss now)
    fun _ => Nat.le_refl _

theorem evictionsLe_store (order : IterationOrder) (benchmark : Benchmark)
    (event : MarketEvent) : EvictionsLe benchmark (benchmark.store order event) := by
  rw [store_eq]
  split_ifs
  · exact evictionsLe_markIntegrityLoss
      ((benchmark.withPending event.key.base (benchmark.openedBase event)).bump
        event.key.coin event.provider { signatureOverflow := 1 }) event.key.coin event.received
  · exact fun _ => Nat.le_refl _
  · exact evictionsLe_settle order (benchmark.withPending _ _) _ _ _
  · exact fun _ => Nat.le_refl _

theorem evictionsLe_recordAccepted (order : IterationOrder) (benchmark : Benchmark)
    (event : MarketEvent) : EvictionsLe benchmark (benchmark.recordAccepted order event) := by
  refine recordAccepted_induction order benchmark (EvictionsLe benchmark)
    (EvictionsLe benchmark) (fun _ => Nat.le_refl _) ?_ ?_ ?_ ?_
  · exact fun state _ _ _ _ held => held.trans (evictionsLe_settle order state _ _ _)
  · exact fun state _ _ _ _ _ held => held.trans (evictionsLe_settle order state _ _ _)
  · exact fun _ _ _ held => held
  · exact fun state _ _ _ held => held.trans (evictionsLe_store order state event)

/-- No call forgets an eviction. -/
theorem evictionsLe_step {call : Call} {after : Benchmark}
    (stepped : benchmark.step call = some after) : EvictionsLe benchmark after := by
  have still : EvictionsLe benchmark benchmark := fun _ => Nat.le_refl _
  refine step_induction (EvictionsLe benchmark) stepped still ?_ ?_ ?_ ?_ ?_ ?_ ?_
  · exact fun _ _ _ _ _ => still
  · exact fun _ _ _ _ _ _ _ _ => evictionsLe_markIntegrityLoss (benchmark.bump _ _ _) _ _
  · exact fun order event _ _ _ => evictionsLe_recordAccepted order benchmark event
  · exact fun order state key now _ _ _ held =>
      held.trans (evictionsLe_settle order state key now false)
  · exact fun _ _ _ _ held => held
  · exact fun _ _ held => held
  · exact fun _ _ _ _ => still

theorem evictionsLe_run {calls : List Call} {origin final : Benchmark}
    (executed : run step origin calls = some final) : EvictionsLe origin final :=
  run_related EvictionsLe (fun _ _ => Nat.le_refl _) (fun _ _ _ left right => left.trans right)
    (fun _ _ _ stepped => evictionsLe_step stepped) executed

end Benchmark

end MarketBenchmark
