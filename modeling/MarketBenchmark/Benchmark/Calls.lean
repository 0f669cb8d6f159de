import MarketBenchmark.Benchmark.Publication
import MarketBenchmark.Benchmark.Settlement
import MarketBenchmark.Foundation.Runs

/-!
# Calls and runs of the benchmark

A run is any sequence of the public calls, each with the iteration order its
hash maps happen to have.  The rules of this file take calls apart into the
settlements and single-component updates they are made of.
-/

namespace MarketBenchmark

open Foundation.HashMaps
open Foundation.Runs

inductive Call where
  | record (order : IterationOrder) (event : ProbeEvent)
  | tick (order : IterationOrder) (now : Nat)
  | windowEvents (order : IterationOrder) (now : Nat) (wallNowMs : Nat)
      (signals : RuntimeSignals) (clock : ClockHealthSnapshot)
  | commitPreparedPublication
  | rejectPreparedPublication

/-- The instant at which a call prunes, if it does. -/
def Call.pruneTime : Call → Option Nat
  | .tick _ now => some now
  | .windowEvents _ now _ _ _ => some now
  | _ => none

namespace Benchmark

/-- Execute one call; undefined where the code panics. -/
def step (benchmark : Benchmark) : Call → Option Benchmark
  | .record order event => benchmark.record order event
  | .tick order now => some (benchmark.tick order now)
  | .windowEvents order now wallNowMs signals clock =>
      (benchmark.windowEvents order now wallNowMs signals clock).map Prod.fst
  | .commitPreparedPublication => some benchmark.commitPreparedPublication.1
  | .rejectPreparedPublication => some benchmark.rejectPreparedPublication

variable (order : IterationOrder) (benchmark : Benchmark)

/-! ## Ticks -/

theorem mem_expired {now : Nat} {key : BaseKey} :
    key ∈ benchmark.expired order now ↔ ∃ pending, benchmark.pending.lookup key = some pending ∧
      benchmark.config.cohortTimeout ≤ now - pending.firstObserved := by
  unfold expired
  constructor
  · intro member
    obtain ⟨⟨base, pending⟩, passed, same⟩ := List.mem_map.mp member
    obtain ⟨visited, overdue⟩ := List.mem_filter.mp passed
    cases same
    exact ⟨pending, HashMap.mem_entries_iff.mp (order.mem_arrange.mp visited),
      of_decide_eq_true overdue⟩
  · rintro ⟨pending, found, overdue⟩
    refine List.mem_map.mpr ⟨⟨key, pending⟩, List.mem_filter.mpr ⟨?_, ?_⟩, rfl⟩
    · exact order.mem_arrange.mpr (HashMap.mem_entries_iff.mpr found)
    · exact decide_eq_true overdue

/-- The base, if it is pending, was first observed at least the timeout ago. -/
def Overdue (benchmark : Benchmark) (key : BaseKey) (now : Nat) : Prop :=
  ∀ pending, benchmark.pending.lookup key = some pending →
    benchmark.config.cohortTimeout ≤ now - pending.firstObserved

/-- A tick settles the expired bases one after the other and then prunes. -/
theorem tick_induction (Holds : Benchmark → Prop) {now : Nat} (init : Holds benchmark)
    (settle : ∀ state key, state.config = benchmark.config → state.Overdue key now →
      Holds state → Holds (state.settle order key now false))
    (prune : ∀ state, state.config = benchmark.config → Holds state → Holds (state.prune now)) :
    Holds (benchmark.tick order now) := by
  suffices folded : ∀ (keys : List BaseKey) (state : Benchmark),
      (∀ key ∈ keys, state.Overdue key now) → state.config = benchmark.config → Holds state →
      (keys.foldl (fun state key => state.settle order key now false) state).config =
        benchmark.config ∧
      Holds (keys.foldl (fun state key => state.settle order key now false) state) by
    have overdue : ∀ key ∈ benchmark.expired order now, benchmark.Overdue key now := by
      intro key member pending found
      obtain ⟨other, otherFound, late⟩ := (mem_expired order benchmark).mp member
      cases Option.some.inj (found.symm.trans otherFound)
      exact late
    obtain ⟨sameConfig, held⟩ := folded (benchmark.expired order now) benchmark overdue rfl init
    exact prune _ sameConfig held
  intro keys
  induction keys with
  | nil =>
      intro state _ sameConfig held
      exact ⟨sameConfig, held⟩
  | cons key rest ih =>
      intro state overdue sameConfig held
      rw [List.foldl_cons]
      refine ih _ ?_ ?_ ?_
      · intro other member pending found
        rw [settle_config]
        rw [settle_pending] at found
        exact overdue other (List.mem_cons_of_mem key member) pending
          (HashMap.lookup_erase_eq_some.mp found).2
      · rw [settle_config, sameConfig]
      · exact settle state key sameConfig (overdue key List.mem_cons_self) held

@[simp]
theorem tick_config (now : Nat) : (benchmark.tick order now).config = benchmark.config := by
  refine tick_induction order benchmark (fun state => state.config = benchmark.config)
    rfl ?_ ?_
  · intro state key sameConfig _ _
    rw [settle_config, sameConfig]
  · intro state sameConfig _
    exact sameConfig

@[simp]
theorem tick_cursor (now : Nat) : (benchmark.tick order now).cursor = benchmark.cursor := by
  refine tick_induction order benchmark (fun state => state.cursor = benchmark.cursor)
    rfl ?_ ?_
  · intro state key _ _ held
    rw [settle_cursor, held]
  · intro state _ held
    exact held

/-! ## Storing an arrival -/

/-- The base of an event, opened if needed, first observed no later than the event. -/
def openedBase (event : MarketEvent) : PendingBase :=
  let opened := (benchmark.pending.lookup event.key.base).getD (PendingBase.new event.received)
  { opened with firstObserved := min opened.firstObserved event.received }

/-- The candidate of an event in its base, opened if needed. -/
def openedCandidate (event : MarketEvent) : PendingCandidate :=
  let found := ((benchmark.openedBase event).candidates.lookup event.key.content).getD
    (PendingCandidate.new event.received)
  { found with firstObserved := min found.firstObserved event.received }

/-- The base already holds the maximum number of other contents. -/
def Overflowing (event : MarketEvent) : Prop :=
  event.key.content ∉ (benchmark.openedBase event).candidates ∧
    maxSignaturesPerBase ≤ (benchmark.openedBase event).candidates.entries.length

instance (event : MarketEvent) : Decidable (benchmark.Overflowing event) :=
  inferInstanceAs (Decidable (_ ∧ _))

def withArrival (candidate : PendingCandidate) (event : MarketEvent) : PendingCandidate :=
  { candidate with
    arrivals := Function.update candidate.arrivals event.provider
      (some { received := event.received, receivedWallMs := event.receivedWallMs }) }

/-- Put a base into the pending map. -/
def withPending (base : BaseKey) (cohort : PendingBase) : Benchmark :=
  { benchmark with pending := benchmark.pending.insert base cohort }

/-- The opened base with one candidate put in. -/
def heldBase (event : MarketEvent) (candidate : PendingCandidate) : PendingBase :=
  { benchmark.openedBase event with
    candidates := (benchmark.openedBase event).candidates.insert event.key.content candidate }

/-- The four ways an arrival is stored. -/
theorem store_eq (event : MarketEvent) :
    benchmark.store order event =
      if benchmark.Overflowing event then
        ((benchmark.withPending event.key.base (benchmark.openedBase event)).bump
          event.key.coin event.provider { signatureOverflow := 1 }).markIntegrityLoss
            event.key.coin event.received
      else if (benchmark.openedCandidate event).hasArrival event.provider then
        (benchmark.withPending event.key.base
          (benchmark.heldBase event (benchmark.openedCandidate event))).bump
            event.key.coin event.provider { duplicate := 1 }
      else if benchmark.config.providers.length = 1 then
        (benchmark.withPending event.key.base
          (benchmark.heldBase event (withArrival (benchmark.openedCandidate event) event))).settle
            order event.key.base event.received false
      else
        benchmark.withPending event.key.base
          (benchmark.heldBase event (withArrival (benchmark.openedCandidate event) event)) := rfl

section WithPending

variable (base : BaseKey) (cohort : PendingBase)

@[simp] theorem withPending_config :
    (benchmark.withPending base cohort).config = benchmark.config := rfl
@[simp] theorem withPending_cursor :
    (benchmark.withPending base cohort).cursor = benchmark.cursor := rfl
@[simp] theorem withPending_pending :
    (benchmark.withPending base cohort).pending = benchmark.pending.insert base cohort := rfl
@[simp] theorem withPending_settledBases :
    (benchmark.withPending base cohort).settledBases = benchmark.settledBases := rfl
@[simp] theorem withPending_settled :
    (benchmark.withPending base cohort).settled = benchmark.settled := rfl
@[simp] theorem withPending_counters :
    (benchmark.withPending base cohort).counters = benchmark.counters := rfl
@[simp] theorem withPending_windows :
    (benchmark.withPending base cohort).windows = benchmark.windows := rfl

theorem withPending_lookup :
    (benchmark.withPending base cohort).pending.lookup base = some cohort :=
  AList.lookup_insert _

end WithPending

@[simp]
theorem store_config (event : MarketEvent) :
    (benchmark.store order event).config = benchmark.config := by
  rw [store_eq]
  split_ifs
  · rfl
  · rfl
  · rw [settle_config, withPending_config]
  · rfl

@[simp]
theorem store_cursor (event : MarketEvent) :
    (benchmark.store order event).cursor = benchmark.cursor := by
  rw [store_eq]
  split_ifs
  · rfl
  · rfl
  · rw [settle_cursor, withPending_cursor]
  · rfl

/-! ## Recording an event -/

/-- Before an event is classified its overdue base is settled, if it is pending. -/
theorem sealOverdue_cases (base : BaseKey) (received : Nat) :
    (benchmark.sealOverdue order base received = benchmark ∧
      ∀ pending, benchmark.pending.lookup base = some pending →
        received - pending.firstObserved < benchmark.config.cohortTimeout) ∨
    ∃ pending, benchmark.pending.lookup base = some pending ∧
      benchmark.config.cohortTimeout ≤ received - pending.firstObserved ∧
      benchmark.sealOverdue order base received = benchmark.settle order base received false := by
  unfold sealOverdue
  cases found : benchmark.pending.lookup base with
  | none => exact Or.inl ⟨rfl, fun pending impossible => by cases impossible⟩
  | some pending =>
      by_cases overdue : benchmark.config.cohortTimeout ≤ received - pending.firstObserved
      · exact Or.inr ⟨pending, rfl, overdue, if_pos overdue⟩
      · refine Or.inl ⟨if_neg overdue, ?_⟩
        intro other same
        cases same
        exact Nat.lt_of_not_le overdue

/-- A new base at the pending cap evicts a pending base. -/
theorem makeRoom_cases (base : BaseKey) (received : Nat) :
    benchmark.makeRoom order base received = benchmark ∨
    ∃ oldest, base ∉ benchmark.pending ∧ oldest ∈ benchmark.pending ∧
      benchmark.makeRoom order base received = benchmark.settle order oldest received true := by
  unfold makeRoom
  by_cases full : base ∉ benchmark.pending ∧
      benchmark.config.maxPending ≤ benchmark.pending.entries.length
  · rw [if_pos full]
    cases chosen : HashMap.oldest order PendingBase.firstObserved benchmark.pending with
    | none => exact Or.inl rfl
    | some oldest => exact Or.inr ⟨oldest, full.1, HashMap.oldest_mem chosen, rfl⟩
  · rw [if_neg full]
    exact Or.inl rfl

/--
Recording an accepted event counts it, settles its base when overdue, and then
either classifies it against the sealed base or, possibly after evicting another
base, stores it.
-/
theorem recordAccepted_induction (Before After : Benchmark → Prop) {event : MarketEvent}
    (init : Before (benchmark.bump event.key.coin event.provider { observed := 1 }))
    (overdue : ∀ state pending, state.config = benchmark.config →
      state.pending.lookup event.key.base = some pending →
      benchmark.config.cohortTimeout ≤ event.received - pending.firstObserved →
      Before state → Before (state.settle order event.key.base event.received false))
    (evict : ∀ state oldest, state.config = benchmark.config →
      event.key.base ∉ state.pending → event.key.base ∉ state.settledBases →
      oldest ∈ state.pending → Before state →
      Before (state.settle order oldest event.received true))
    (sealed : ∀ state, state.config = benchmark.config →
      event.key.base ∈ state.settledBases → Before state → After (state.recordSealed event))
    (store : ∀ state, state.config = benchmark.config →
      event.key.base ∉ state.settledBases →
      (∀ pending, state.pending.lookup event.key.base = some pending →
        event.received - pending.firstObserved < benchmark.config.cohortTimeout) →
      Before state → After (state.store order event)) :
    After (benchmark.recordAccepted order event) := by
  unfold recordAccepted
  dsimp only
  have started : (benchmark.bump event.key.coin event.provider { observed := 1 }).config =
      benchmark.config := rfl
  generalize benchmark.bump event.key.coin event.provider { observed := 1 } = state at init started
  have checked : Before (state.sealOverdue order event.key.base event.received) ∧
      (state.sealOverdue order event.key.base event.received).config = benchmark.config ∧
      ∀ pending, (state.sealOverdue order event.key.base event.received).pending.lookup
        event.key.base = some pending →
        event.received - pending.firstObserved < benchmark.config.cohortTimeout := by
    rcases sealOverdue_cases order state event.key.base event.received with
      ⟨same, inTime⟩ | ⟨pending, found, late, settled⟩
    · rw [same]
      rw [started] at inTime
      exact ⟨init, started, inTime⟩
    · rw [settled]
      rw [started] at late
      refine ⟨overdue state pending started found late init, ?_, ?_⟩
      · rw [settle_config, started]
      · intro other otherFound
        rw [settle_pending, AList.lookup_erase] at otherFound
        cases otherFound
  obtain ⟨held, sameConfig, inTime⟩ := checked
  generalize state.sealOverdue order event.key.base event.received = middle
    at held sameConfig inTime
  by_cases isSealed : event.key.base ∈ middle.settledBases
  · rw [if_pos isSealed]
    exact sealed middle sameConfig isSealed held
  · rw [if_neg isSealed]
    rcases makeRoom_cases order middle event.key.base event.received with
      same | ⟨oldest, absent, present, settled⟩
    · rw [same]
      exact store middle sameConfig isSealed inTime held
    · rw [settled]
      have different : oldest ≠ event.key.base := by
        intro same
        rw [same] at present
        exact absent present
      refine store _ ?_ ?_ ?_ (evict middle oldest sameConfig absent isSealed present held)
      · rw [settle_config, sameConfig]
      · intro member
        obtain ⟨pending, found⟩ := HashMap.exists_lookup_of_mem present
        rw [settle_settledBases order middle oldest event.received true found] at member
        rcases mem_insertSettledBase order middle member with same | before
        · exact different same.symm
        · exact isSealed before
      · intro pending found
        rw [settle_pending] at found
        exact inTime pending (HashMap.lookup_erase_eq_some.mp found).2

/-- The event enters the benchmark: an active provider and a plausible timestamp. -/
structure Accepted (config : BenchmarkConfig) (event : MarketEvent) : Prop where
  active : event.provider ∈ config.providers
  positive : 0 < event.key.eventMs
  past : event.key.eventMs ≤ event.receivedWallMs

instance (config : BenchmarkConfig) (event : MarketEvent) : Decidable (Accepted config event) :=
  decidable_of_iff (event.provider ∈ config.providers ∧ 0 < event.key.eventMs ∧
      event.key.eventMs ≤ event.receivedWallMs)
    ⟨fun held => ⟨held.1, held.2.1, held.2.2⟩, fun held => ⟨held.1, held.2, held.3⟩⟩

/-- Increments that touch neither observations nor coverage. -/
def Sideline (increment : ProviderCounters) : Prop :=
  ∃ negativeLatency futureTimestamp reconnects sequenceGaps replayCount replayGaps,
    increment = { negativeLatency, futureTimestamp, reconnects, sequenceGaps, replayCount,
                  replayGaps }

/-- The three ways a market event is recorded. -/
theorem recordMarket_cases {event : MarketEvent} {after : Benchmark}
    (recorded : benchmark.recordMarket order event = some after) :
    (event.provider ∉ benchmark.config.providers ∧ after = benchmark) ∨
    (event.provider ∈ benchmark.config.providers ∧ event.key.coin ∈ benchmark.config.coins ∧
      ¬Accepted benchmark.config event ∧ ∃ increment, Sideline increment ∧
        after = (benchmark.bump event.key.coin event.provider increment).markIntegrityLoss
          event.key.coin event.received) ∨
    (event.key.coin ∈ benchmark.config.coins ∧ Accepted benchmark.config event ∧
      after = benchmark.recordAccepted order event) := by
  unfold recordMarket at recorded
  by_cases active : event.provider ∉ benchmark.config.providers
  · rw [if_pos active] at recorded
    exact Or.inl ⟨active, (Option.some.inj recorded).symm⟩
  rw [if_neg active] at recorded
  have isActive := not_not.mp active
  by_cases registered : event.key.coin ∉ benchmark.config.coins
  · rw [if_pos registered] at recorded
    cases recorded
  rw [if_neg registered] at recorded
  have isRegistered := not_not.mp registered
  by_cases unset : event.key.eventMs = 0
  · rw [if_pos unset] at recorded
    refine Or.inr (Or.inl ⟨isActive, isRegistered, ?_, _, ?_, (Option.some.inj recorded).symm⟩)
    · intro accepted
      exact Nat.ne_of_gt accepted.positive unset
    · exact ⟨0, 1, 0, 0, 0, 0, rfl⟩
  rw [if_neg unset] at recorded
  by_cases future : event.receivedWallMs < event.key.eventMs
  · rw [if_pos future] at recorded
    refine Or.inr (Or.inl ⟨isActive, isRegistered, ?_, _, ?_, (Option.some.inj recorded).symm⟩)
    · intro accepted
      exact Nat.not_le_of_gt future accepted.past
    · split
      · exact ⟨0, 1, 0, 0, 0, 0, rfl⟩
      · exact ⟨1, 0, 0, 0, 0, 0, rfl⟩
  · rw [if_neg future] at recorded
    refine Or.inr (Or.inr ⟨isRegistered, ⟨isActive, ?_, ?_⟩, (Option.some.inj recorded).symm⟩)
    · exact Nat.pos_of_ne_zero unset
    · exact Nat.le_of_not_lt future

/-- An accepted event of a registered coin is recorded. -/
theorem recordMarket_of_accepted {event : MarketEvent}
    (registered : event.key.coin ∈ benchmark.config.coins)
    (accepted : Accepted benchmark.config event) :
    benchmark.recordMarket order event = some (benchmark.recordAccepted order event) := by
  unfold recordMarket
  rw [if_neg (not_not_intro accepted.active), if_neg (not_not_intro registered),
    if_neg (Nat.pos_iff_ne_zero.mp accepted.positive), if_neg (Nat.not_lt.mpr accepted.past)]

/-- Every event is a market event or advances sideline counters. -/
theorem record_cases {event : ProbeEvent} {after : Benchmark}
    (recorded : benchmark.record order event = some after) :
    (∃ market, event = .market market ∧ benchmark.recordMarket order market = some after) ∨
    ((∀ market, event ≠ .market market) ∧ ∃ provider coin increment,
      coin ∈ benchmark.config.coins ∧ Sideline increment ∧
      after = benchmark.bump coin provider increment) := by
  unfold record at recorded
  cases event with
  | market market => exact Or.inl ⟨market, rfl, recorded⟩
  | reconnect provider coin =>
      dsimp only at recorded
      split at recorded
      · cases recorded
      · next registered =>
          exact Or.inr ⟨nofun, provider, coin, _, not_not.mp registered,
            ⟨0, 0, 1, 0, 0, 0, rfl⟩, (Option.some.inj recorded).symm⟩
  | sequenceGap provider coin missing =>
      dsimp only at recorded
      split at recorded
      · cases recorded
      · next registered =>
          exact Or.inr ⟨nofun, provider, coin, _, not_not.mp registered,
            ⟨0, 0, 0, missing, 0, 0, rfl⟩, (Option.some.inj recorded).symm⟩
  | replay provider coin messages hasGap =>
      dsimp only at recorded
      split at recorded
      · cases recorded
      · next registered =>
          exact Or.inr ⟨nofun, provider, coin, _, not_not.mp registered,
            ⟨0, 0, 0, 0, messages, hasGap.toNat, rfl⟩, (Option.some.inj recorded).symm⟩

/-! ## Publications -/

/-- Replace the prepared publication. -/
def withPrepared (interval : Option PreparedOutcomeInterval) : Benchmark :=
  { benchmark with preparedOutcomeInterval := interval }

/-- Mark the outcomes up to the end of an interval and move the cursor there. -/
def withCommitted (interval : PreparedOutcomeInterval) : Benchmark :=
  { benchmark with
    windows := fun coin => markOutcomesReported (benchmark.windows coin) interval.stop
    outcomeCursor := interval.stop
    outcomeCursorWallMs := interval.stopWallMs
    outcomeHasPublished := true }

/-- Preparing a publication ticks and replaces what was prepared. -/
theorem windowEvents_cases {now : Nat} {wallNowMs : Nat} {signals : RuntimeSignals}
    {clock : ClockHealthSnapshot} {after : Benchmark} {rows : List LatencyWindowEvent}
    (prepared : benchmark.windowEvents order now wallNowMs signals clock = some (after, rows)) :
    ∃ interval, after =
      ((benchmark.withPrepared none).tick order now).withPrepared interval := by
  unfold windowEvents at prepared
  dsimp only at prepared
  split at prepared
  · cases prepared
  · split at prepared
    · cases prepared
      exact ⟨_, rfl⟩
    · cases prepared
      exact ⟨_, rfl⟩

/-- A commit takes what was prepared and publishes it at most once. -/
theorem commitPreparedPublication_cases :
    benchmark.commitPreparedPublication.1 = benchmark.withPrepared none ∨
    ∃ interval, benchmark.preparedOutcomeInterval = some interval ∧
      benchmark.outcomeCursorWallMs < interval.stopWallMs ∧
      benchmark.outcomeCursor < interval.stop ∧
      benchmark.commitPreparedPublication.1 =
        (benchmark.withPrepared none).withCommitted interval := by
  unfold commitPreparedPublication
  cases prepared : benchmark.preparedOutcomeInterval with
  | none =>
      have same : benchmark.withPrepared none = benchmark := by
        unfold withPrepared
        rw [← prepared]
      exact Or.inl same.symm
  | some interval =>
      dsimp only
      by_cases stale : interval.stopWallMs ≤ benchmark.outcomeCursorWallMs ∨
          interval.stop ≤ benchmark.outcomeCursor
      · rw [if_pos stale]
        exact Or.inl rfl
      · rw [if_neg stale]
        obtain ⟨wallAdvances, advances⟩ := not_or.mp stale
        exact Or.inr ⟨interval, rfl, Nat.lt_of_not_le wallAdvances,
          Nat.lt_of_not_le advances, rfl⟩

/--
A property that survives every settlement, pruning, publication and recorded
event of a call survives the call.
-/
theorem step_induction (Holds : Benchmark → Prop) {before after : Benchmark} {call : Call}
    (stepped : before.step call = some after) (held : Holds before)
    (sideline : ∀ coin provider increment, coin ∈ before.config.coins → Sideline increment →
      Holds (before.bump coin provider increment))
    (reject : ∀ order event increment, call = .record order (.market event) →
      event.key.coin ∈ before.config.coins → event.provider ∈ before.config.providers →
      ¬Accepted before.config event → Sideline increment →
      Holds ((before.bump event.key.coin event.provider increment).markIntegrityLoss
        event.key.coin event.received))
    (accept : ∀ order event, call = .record order (.market event) →
       event.key.coin ∈ before.config.coins → Accepted before.config event →
        Holds (before.recordAccepted order event))
    (settle : ∀ order state key now, call.pruneTime = some now → state.config = before.config →
      state.Overdue key now → Holds state → Holds (state.settle order key now false))
    (prune : ∀ state now, call.pruneTime = some now → state.config = before.config →
      Holds state → Holds (state.prune now))
    (prepare : ∀ state interval, Holds state → Holds (state.withPrepared interval))
    (commit : ∀ interval, before.preparedOutcomeInterval = some interval →
      before.outcomeCursorWallMs < interval.stopWallMs → before.outcomeCursor < interval.stop →
      Holds ((before.withPrepared none).withCommitted interval)) :
    Holds after := by
  have ticked : ∀ order state now, call.pruneTime = some now → state.config = before.config →
      Holds state → Holds (Benchmark.tick order state now) := by
    intro order state now atTime sameConfig init
    refine tick_induction order state Holds init ?_ ?_
    · intro middle key middleConfig overdue kept
      exact settle order middle key now atTime (middleConfig.trans sameConfig) overdue kept
    · intro middle middleConfig kept
      exact prune middle now atTime (middleConfig.trans sameConfig) kept
  cases call with
  | record order event =>
      rcases record_cases order before stepped with
        ⟨market, isMarket, recorded⟩ | ⟨_, provider, coin, increment, registered, side, same⟩
      · subst isMarket
        rcases recordMarket_cases order before recorded with
          ⟨_, same⟩ | ⟨active, registered, rejected, increment, side, same⟩ |
          ⟨registered, accepted, same⟩
        · rw [same]
          exact held
        · rw [same]
          exact reject order market increment rfl registered active rejected side
        · rw [same]
          exact accept order market rfl registered accepted
      · rw [same]
        exact sideline coin provider increment registered side
  | tick order now =>
      cases stepped
      exact ticked order before now rfl rfl held
  | windowEvents order now wallNowMs signals clock =>
      obtain ⟨⟨state, rows⟩, prepared, same⟩ := Option.map_eq_some_iff.mp stepped
      obtain ⟨interval, prepared⟩ := windowEvents_cases order before prepared
      rw [← same, prepared]
      exact prepare _ interval (ticked order _ now rfl rfl (prepare before none held))
  | commitPreparedPublication =>
      cases stepped
      rcases commitPreparedPublication_cases before with
        same | ⟨interval, prepared, wallAdvances, advances, same⟩
      · rw [same]
        exact prepare before none held
      · rw [same]
        exact commit interval prepared wallAdvances advances
  | rejectPreparedPublication =>
      cases stepped
      exact prepare before none held

/-- No call changes the configuration. -/
theorem step_config {call : Call} {after : Benchmark}
    (stepped : benchmark.step call = some after) : after.config = benchmark.config := by
  refine step_induction (fun state => state.config = benchmark.config) stepped rfl
    ?_ ?_ ?_ ?_ ?_ ?_ ?_
  · exact fun _ _ _ _ _ => rfl
  · exact fun _ _ _ _ _ _ _ _ => rfl
  · intro order event _ _ _
    refine recordAccepted_induction order benchmark
      (fun middle => middle.config = benchmark.config)
      (fun middle => middle.config = benchmark.config) rfl ?_ ?_ ?_ ?_
    · intro middle pending _ _ _ kept
      rw [settle_config, kept]
    · intro middle oldest _ _ _ _ kept
      rw [settle_config, kept]
    · exact fun _ _ _ kept => kept
    · intro middle _ _ _ kept
      rw [store_config, kept]
  · intro order state key now _ same _ _
    rw [settle_config, same]
  · exact fun _ _ _ same _ => same
  · exact fun _ _ same => same
  · exact fun _ _ _ _ => rfl

theorem run_config {calls : List Call} {origin final : Benchmark}
    (executed : run step origin calls = some final) : final.config = origin.config :=
  run_preserves (fun state => state.config = origin.config)
    (fun _ _ _ same stepped => (step_config _ stepped).trans same) rfl executed

/-! ## A sample process -/

/-- A book process with a deadline of ten instants and a window of a thousand. -/
def bookProcess : BenchmarkConfig :=
  { BenchmarkConfig.production .bbo ["BTC"] "aws" "nrt" "nrt" "aws-nrt-01" "run" with
    rollingWindow := 1000
    cohortTimeout := 10 }

/-- A provider delivers the quote `px` of time one. -/
def quote (provider : Provider) (px : String) (received : Nat) : MarketEvent where
  provider := provider
  key :=
    { coin := "BTC"
      eventMs := 1
      content := .bbo (some { px := px, sz := "1", n := 1 }) none }
  received := received
  receivedWallMs := 1 + received

def recordQuote (provider : Provider) (px : String) (received : Nat) : Call :=
  .record .stored (.market (quote provider px received))

/-- One complete cohort, one late revision. -/
def bookCalls : List Call :=
  [recordQuote .foundationWs "7" 0, recordQuote .quickNodeGrpc "7" 3,
    recordQuote .hydromancerWs "7" 5, .tick .stored 20, recordQuote .foundationWs "8" 21]

/-- All streams live, and just heard of. -/
def liveSignals (wallNowMs : Nat) : RuntimeSignals :=
  fun _ _ => { connectionUp := true, lastMessageWallMs := wallNowMs }

/-- A verified clock, just checked. -/
def soundClock (wallNowMs : Nat) : ClockHealthSnapshot where
  checkedAtWallMs := wallNowMs
  verified := true
  synchronized := true
  offsetMs := some 0
  errorBoundMs := some 0
  maxOffsetMs := 1

end Benchmark

end MarketBenchmark
