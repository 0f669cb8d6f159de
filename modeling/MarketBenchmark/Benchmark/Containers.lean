import MarketBenchmark.Benchmark.Losses
import MarketBenchmark.Foundation.Transducers

/-!
# The containers that evict

Which losses a call stamps depends on little of the state: on the sealed bases, on
the settled keys, and on how full the two rings of each coin are.  This file reads a
call as the list of what it puts into these containers, as far as the event and the
pending bases before the call tell.  A container that is full gives up its oldest
entry, and the coin of that entry is stamped.  Fed with the list one after the other,
the containers give up exactly the losses of the call.
-/

namespace MarketBenchmark

open Foundation.HashMaps
open Foundation.TimedRing
open Foundation.Transducers

/-! ## Feeding the containers -/

/-- What a call puts into the containers, or loses without one. -/
inductive Filling where
  /-- A base is sealed. -/
  | base (key : BaseKey) (now : Nat)
  /-- A canonical candidate is settled. -/
  | sample (key : EventKey) (candidate : PendingCandidate) (now : Nat)
  /-- An event is refused, or a pending base evicted. -/
  | lost (coin : String) (now : Nat)

/-- The sealed bases, the settled keys, and the sizes of the rings of each coin. -/
@[ext]
structure Containers where
  settledBases : HashMap BaseKey Nat
  settled : HashMap EventKey SettledCohort
  coverage : String → Nat
  cohorts : String → Nat

/-- The tombstone of a settled candidate. -/
def settledCohort (config : BenchmarkConfig) (candidate : PendingCandidate) (now : Nat) :
    SettledCohort where
  settledAt := Benchmark.sampleStamp config candidate now
  matchedMask := fun provider =>
    decide (provider ∈ config.providers) && candidate.hasArrival provider

namespace Containers

/-- A ring grows by one entry up to its cap. -/
def grown (cap size : Nat) : Nat :=
  if cap ≤ size then size else size + 1

/-- Put one thing in: the containers after it, and each coin that it stamps with the
instant of the stamp. -/
def put (order : IterationOrder) (config : BenchmarkConfig) (containers : Containers) :
    Filling → Containers × List (String × Nat)
  | .base key now =>
      ({ containers with
          settledBases := HashMap.insertDisplacing order (fun timestamp => timestamp)
            config.maxSettled containers.settledBases key now },
        (HashMap.displaced order (fun timestamp => timestamp) config.maxSettled
          containers.settledBases).toList.map fun oldest => (oldest.coin, now))
  | .sample key candidate now =>
      ({ containers with
          settled := HashMap.insertDisplacing order SettledCohort.settledAt config.maxSettled
            containers.settled key (settledCohort config candidate now)
          coverage := fun coin =>
            if coin = key.coin then grown config.maxRollingCohorts (containers.coverage coin)
            else containers.coverage coin
          cohorts := fun coin =>
            if coin = key.coin ∧ candidate.complete config.providers then
              grown config.maxRollingCohorts (containers.cohorts coin)
            else containers.cohorts coin },
        (if config.maxRollingCohorts ≤ containers.coverage key.coin then [(key.coin, now)]
          else []) ++
        (if candidate.complete config.providers ∧
            config.maxRollingCohorts ≤ containers.cohorts key.coin then [(key.coin, now)]
          else []) ++
        (HashMap.displaced order SettledCohort.settledAt config.maxSettled
          containers.settled).toList.map fun oldest =>
            (oldest.coin, Benchmark.sampleStamp config candidate now))
  | .lost coin now => (containers, [(coin, now)])

end Containers

namespace Benchmark

/-! ## What a call puts in -/

section Fillings

variable (order : IterationOrder) (benchmark : Benchmark)

/-- The containers of a benchmark. -/
def containers : Containers where
  settledBases := benchmark.settledBases
  settled := benchmark.settled
  coverage coin := (benchmark.windows coin).coverage.length
  cohorts coin := (benchmark.windows coin).cohorts.length

/-- A settled base puts in itself and its canonical candidates. -/
def baseFillings (config : BenchmarkConfig) (key : BaseKey) (now : Nat) (evicted : Bool)
    (pending : PendingBase) : List Filling :=
  .base key now :: ((if evicted then [.lost key.coin now] else []) ++
    (canonical order config pending).map fun entry =>
      .sample (eventKey key entry.1) entry.2 now)

/-- The fillings of settling a base, if it is pending. -/
def settleFillings (key : BaseKey) (now : Nat) (evicted : Bool) : List Filling :=
  (benchmark.pending.lookup key).elim []
    (baseFillings order benchmark.config key now evicted)

/-- A tick settles the expired bases. -/
def tickFillings (now : Nat) : List Filling :=
  (benchmark.expired order now).flatMap fun key =>
    benchmark.settleFillings order key now false

/-- The event finds its base pending past the deadline. -/
def FindsOverdue (event : MarketEvent) : Prop :=
  ∃ pending ∈ benchmark.pending.lookup event.key.base,
    benchmark.config.cohortTimeout ≤ event.received - pending.firstObserved

instance (event : MarketEvent) : Decidable (benchmark.FindsOverdue event) :=
  inferInstanceAs (Decidable (∃ pending ∈ _, _))

/-- The base that makes room for a new one at the pending cap. -/
def evicting (base : BaseKey) : Option BaseKey :=
  if base ∉ benchmark.pending ∧
      benchmark.config.maxPending ≤ benchmark.pending.entries.length then
    HashMap.oldest order PendingBase.firstObserved benchmark.pending
  else none

/-- A full base refuses the event; a single source has its base settled at once. -/
def storeFillings (event : MarketEvent) : List Filling :=
  if benchmark.Overflowing event then [.lost event.key.coin event.received]
  else if (benchmark.openedCandidate event).hasArrival event.provider then []
  else if benchmark.config.providers.length = 1 then
    baseFillings order benchmark.config event.key.base event.received false
      (benchmark.heldBase event (withArrival (benchmark.openedCandidate event) event))
  else []

/-- An overdue base is settled before the event is looked at; a new base at the
pending cap has another one evicted. -/
def recordFillings (event : MarketEvent) : List Filling :=
  if event.provider ∉ benchmark.config.providers then []
  else if ¬Accepted benchmark.config event then [.lost event.key.coin event.received]
  else if benchmark.FindsOverdue event then
    benchmark.settleFillings order event.key.base event.received false
  else if event.key.base ∈ benchmark.settledBases then []
  else
    ((benchmark.evicting order event.key.base).elim [] fun oldest =>
      benchmark.settleFillings order oldest event.received true) ++
      benchmark.storeFillings order event

/-- Feed the containers of a benchmark. -/
def fed (fillings : List Filling) : Containers × List (String × Nat) :=
  feed (Containers.put order benchmark.config) benchmark.containers fillings

/-- Each coin that a call stamps, with the instant, in the order of the stamps. -/
def stamps (benchmark : Benchmark) : Call → List (String × Nat)
  | .record order (.market event) =>
      (benchmark.fed order (benchmark.recordFillings order event)).2
  | .tick order now => (benchmark.fed order (benchmark.tickFillings order now)).2
  | .windowEvents order now _ _ _ =>
      (benchmark.fed order (benchmark.tickFillings order now)).2
  | _ => []

end Fillings

/-! ## What the containers give up is what the benchmark loses -/

end Benchmark

/-- The coin that a loss stamps, with the instant. -/
def Loss.mark (loss : Loss) : String × Nat := (loss.lost.coin, loss.stamp)

theorem Loss.stamps_eq (coin : String) (losses : List Loss) :
    Loss.stamps coin losses =
      ((losses.map Loss.mark).filter fun mark => decide (mark.1 = coin)).map Prod.snd := by
  unfold Loss.stamps
  rw [List.filter_map, List.map_map]
  rfl

/-- Between two states the containers took in the fillings and gave up the losses. -/
structure Fed (order : IterationOrder) (fillings : List Filling) (losses : List Loss)
    (before after : Benchmark) : Prop where
  config : after.config = before.config
  containers : after.containers = (before.fed order fillings).1
  marks : losses.map Loss.mark = (before.fed order fillings).2

namespace Fed

variable {order : IterationOrder} {first second third : Benchmark}
  {fillings early late : List Filling} {losses lostEarly lostLate : List Loss}

/-- A change that leaves the containers alone. -/
theorem of_same (config : second.config = first.config)
    (containers : second.containers = first.containers) : Fed order [] [] first second :=
  ⟨config, containers, rfl⟩

theorem refl (benchmark : Benchmark) : Fed order [] [] benchmark benchmark :=
  of_same rfl rfl

theorem trans (left : Fed order early lostEarly first second)
    (right : Fed order late lostLate second third) :
    Fed order (early ++ late) (lostEarly ++ lostLate) first third := by
  have between : second.fed order late = feed (Containers.put order first.config)
      (first.fed order early).1 late := by
    unfold Benchmark.fed
    rw [left.config, left.containers]
    rfl
  have joined : first.fed order (early ++ late) = ((second.fed order late).1,
      (first.fed order early).2 ++ (second.fed order late).2) := by
    rw [between]
    exact feed_append _ early late
  refine ⟨right.config.trans left.config, ?_, ?_⟩
  · rw [joined]
    exact right.containers
  · rw [joined, List.map_append, left.marks, right.marks]

/-- A change after the feeding that leaves the containers alone. -/
theorem trans_same (left : Fed order fillings losses first second)
    (config : third.config = second.config)
    (containers : third.containers = second.containers) :
    Fed order fillings losses first third := by
  have both := left.trans (of_same config containers)
  rw [List.append_nil, List.append_nil] at both
  exact both

/-- One thing was put in. -/
theorem single {filling : Filling} (config : second.config = first.config)
    (containers : second.containers =
      (first.containers.put order first.config filling).1)
    (marks : losses.map Loss.mark = (first.containers.put order first.config filling).2) :
    Fed order [filling] losses first second :=
  ⟨config, containers, marks.trans (List.append_nil _).symm⟩

end Fed

namespace Benchmark

variable (order : IterationOrder) (benchmark : Benchmark)

theorem insertSettledBase_settledBases (key : BaseKey) (settledAt : Nat) :
    (benchmark.insertSettledBase order key settledAt).settledBases =
      HashMap.insertDisplacing order (fun timestamp => timestamp) benchmark.config.maxSettled
        benchmark.settledBases key settledAt := by
  unfold insertSettledBase HashMap.insertDisplacing HashMap.displaced
  by_cases full : benchmark.config.maxSettled ≤ benchmark.settledBases.entries.length
  · rw [if_pos full, if_pos full]
    cases HashMap.oldest order (fun timestamp => timestamp) benchmark.settledBases <;> rfl
  · rw [if_neg full, if_neg full]
    rfl

theorem insertSettled_settled (key : EventKey) (settled : SettledCohort) :
    (benchmark.insertSettled order key settled).settled =
      HashMap.insertDisplacing order SettledCohort.settledAt benchmark.config.maxSettled
        benchmark.settled key settled := by
  unfold insertSettled HashMap.insertDisplacing HashMap.displaced
  by_cases full : benchmark.config.maxSettled ≤ benchmark.settled.entries.length
  · rw [if_pos full, if_pos full]
    cases HashMap.oldest order SettledCohort.settledAt benchmark.settled <;> rfl
  · rw [if_neg full, if_neg full]
    rfl

theorem marks_insertSettledBaseLosses (settledAt : Nat) :
    (benchmark.insertSettledBaseLosses order settledAt).map Loss.mark =
      (HashMap.displaced order (fun timestamp => timestamp) benchmark.config.maxSettled
        benchmark.settledBases).toList.map fun oldest => (oldest.coin, settledAt) := by
  unfold insertSettledBaseLosses HashMap.displaced
  split
  · cases HashMap.oldest order (fun timestamp => timestamp) benchmark.settledBases <;> rfl
  · rfl

theorem marks_insertSettledLosses (settledAt : Nat) :
    (benchmark.insertSettledLosses order settledAt).map Loss.mark =
      (HashMap.displaced order SettledCohort.settledAt benchmark.config.maxSettled
        benchmark.settled).toList.map fun oldest => (oldest.coin, settledAt) := by
  unfold insertSettledLosses HashMap.displaced
  split
  · cases HashMap.oldest order SettledCohort.settledAt benchmark.settled <;> rfl
  · rfl

/-- A ring that is full stamps its own coin. -/
theorem marks_sampleLosses (key : EventKey) (candidate : PendingCandidate) (now : Nat)
    (seen : Provider → Bool) (config : BenchmarkConfig) (window : CoinWindow) :
    (sampleLosses key candidate now seen config window).map Loss.mark =
      (if config.maxRollingCohorts ≤ window.coverage.length then [(key.coin, now)] else []) ++
      if candidate.complete config.providers ∧
          config.maxRollingCohorts ≤ window.cohorts.length then [(key.coin, now)]
      else [] := by
  unfold sampleLosses
  rw [List.map_append, List.map_map, List.map_map]
  congr 1
  · exact map_overflow_const _ _ _ _ (key.coin, now)
  · by_cases complete : candidate.complete config.providers = true
    · rw [if_pos complete]
      refine (map_overflow_const _ _ _ _ (key.coin, now)).trans ?_
      exact if_congr (iff_and_self.mpr fun _ => complete) rfl rfl
    · rw [if_neg complete, if_neg fun both => complete both.1]
      rfl

theorem fed_finalizeCandidate (key : EventKey) (candidate : PendingCandidate) (now : Nat)
    (seen : Provider → Bool) :
    Fed order [.sample key candidate now]
      (benchmark.finalizeCandidateLosses order key candidate now seen) benchmark
      (benchmark.finalizeCandidate order key candidate now seen) := by
  have windows : ∀ (size : CoinWindow → Nat)
      (_ : ∀ window at_, size (CoinWindow.evictState window at_) = size window) (coin : String),
      size ((benchmark.finalizeCandidate order key candidate now seen).windows coin) =
        if coin = key.coin then
          size (sampleWindow benchmark.config key candidate now seen (benchmark.windows coin))
        else size (benchmark.windows coin) :=
    finalizeCandidate_windows order benchmark key candidate now seen
  refine Fed.single (finalizeCandidate_config order benchmark key candidate now seen) ?_ ?_
  · refine Containers.ext ?_ ?_ ?_ ?_
    · exact finalizeCandidate_settledBases order benchmark key candidate now seen
    · change (benchmark.finalizeCandidate order key candidate now seen).settled = _
      rw [finalizeCandidate_eq, insertSettled_settled]
      rfl
    · funext coin
      refine (windows (fun window => window.coverage.length) (fun _ _ => rfl) coin).trans ?_
      rw [sampleWindow_coverage, length_insertCapped]
      rfl
    · funext coin
      refine (windows (fun window => window.cohorts.length) (fun _ _ => rfl) coin).trans ?_
      rw [sampleWindow_cohorts]
      by_cases own : coin = key.coin
      · by_cases complete : candidate.complete benchmark.config.providers = true
        · rw [if_pos own, if_pos complete, length_insertCapped]
          exact (if_pos ⟨own, complete⟩).symm
        · rw [if_pos own, if_neg complete]
          exact (if_neg fun both => complete both.2).symm
      · rw [if_neg own]
        exact (if_neg fun both => own both.1).symm
  · rw [finalizeCandidateLosses_eq, List.map_append, marks_sampleLosses,
      marks_insertSettledLosses]
    rfl

/-- Feeding item by item. -/
theorem fed_loop {Item : Type} (next : Benchmark → Item → Benchmark)
    (losses : Benchmark → Item → List Loss) (fillings : Item → List Filling)
    (items : List Item)
    (fed : ∀ state item, item ∈ items →
      Fed order (fillings item) (losses state item) state (next state item)) :
    Fed order (items.flatMap fillings) (loopLosses next losses benchmark items) benchmark
      (items.foldl next benchmark) := by
  induction items generalizing benchmark with
  | nil => exact Fed.refl benchmark
  | cons item rest ih =>
      refine (fed benchmark item List.mem_cons_self).trans (ih _ fun state other member => ?_)
      exact fed state other (List.mem_cons_of_mem item member)

/-- A change of a window that keeps its rings leaves the containers alone. -/
theorem containers_updateWindow (coin : String) (change : CoinWindow → CoinWindow)
    (coverage : ∀ window, (change window).coverage = window.coverage)
    (cohorts : ∀ window, (change window).cohorts = window.cohorts) :
    (benchmark.updateWindow coin change).containers = benchmark.containers := by
  refine Containers.ext rfl rfl (funext fun other => ?_) (funext fun other => ?_)
  · change ((benchmark.updateWindow coin change).windows other).coverage.length =
      (benchmark.windows other).coverage.length
    rw [updateWindow_windows]
    split
    · rw [coverage]
    · rfl
  · change ((benchmark.updateWindow coin change).windows other).cohorts.length =
      (benchmark.windows other).cohorts.length
    rw [updateWindow_windows]
    split
    · rw [cohorts]
    · rfl

/-! ## Settlements -/

section Settle

variable (key : BaseKey) (now : Nat) (evicted : Bool)

theorem fed_sealBase (pending : PendingBase) :
    Fed order (.base key now :: if evicted then [.lost key.coin now] else [])
      (benchmark.insertSettledBaseLosses order now ++
        if evicted then [⟨.pendingBase key, now⟩] else []) benchmark
      (benchmark.sealBase order key pending now evicted) := by
  have sealed : Fed order [.base key now] (benchmark.insertSettledBaseLosses order now) benchmark
      (Benchmark.insertSettledBase order
        { benchmark with pending := benchmark.pending.erase key } key now) := by
    refine Fed.single (insertSettledBase_config order _ key now) ?_ ?_
    · refine Containers.ext ?_ ?_ ?_ ?_
      · exact insertSettledBase_settledBases order
          { benchmark with pending := benchmark.pending.erase key } key now
      · exact insertSettledBase_settled order _ key now
      · funext coin
        exact insertSettledBase_windows order _ key now
          (fun window => window.coverage.length) (fun _ _ => rfl) coin
      · funext coin
        exact insertSettledBase_windows order _ key now
          (fun window => window.cohorts.length) (fun _ _ => rfl) coin
    · exact marks_insertSettledBaseLosses order benchmark now
  cases evicted with
  | false =>
      rw [if_neg Bool.false_ne_true, if_neg Bool.false_ne_true, List.append_nil]
      exact sealed.trans_same rfl rfl
  | true =>
      rw [if_pos rfl, if_pos rfl]
      have stamped := containers_updateWindow (Benchmark.insertSettledBase order
        { benchmark with pending := benchmark.pending.erase key } key now) key.coin
        (fun window => window.evictState now) (fun _ => rfl) fun _ => rfl
      exact sealed.trans (Fed.single rfl stamped rfl)

variable {key}

/-- A settlement puts in the base and then its canonical candidates. -/
theorem fed_settle_of_lookup {pending : PendingBase}
    (found : benchmark.pending.lookup key = some pending) :
    Fed order (baseFillings order benchmark.config key now evicted pending)
      (benchmark.settleLosses order key now evicted) benchmark
      (benchmark.settle order key now evicted) := by
  have sampled := fed_loop order (benchmark.sealBase order key pending now evicted)
    (fun state entry => state.finalizeCandidate order (eventKey key entry.1) entry.2 now
      (noncanonicalSeen benchmark.config (admitted order benchmark.config pending)))
    (fun state entry => state.finalizeCandidateLosses order (eventKey key entry.1) entry.2 now
      (noncanonicalSeen benchmark.config (admitted order benchmark.config pending)))
    (fun entry => [.sample (eventKey key entry.1) entry.2 now])
    (canonical order benchmark.config pending)
    (fun state entry _ => fed_finalizeCandidate order state (eventKey key entry.1) entry.2 now _)
  have both := (fed_sealBase order benchmark key now evicted pending).trans sampled
  rw [← List.map_eq_flatMap] at both
  unfold settleLosses baseFillings
  rw [settle_of_lookup order benchmark now evicted found, found]
  exact both

variable (key)

theorem fed_settle :
    Fed order (benchmark.settleFillings order key now evicted)
      (benchmark.settleLosses order key now evicted) benchmark
      (benchmark.settle order key now evicted) := by
  unfold settleFillings
  cases found : benchmark.pending.lookup key with
  | none =>
      unfold settleLosses
      rw [settle_of_lookup_none order benchmark now evicted found, found]
      exact Fed.refl benchmark
  | some pending => exact fed_settle_of_lookup order benchmark now evicted found

variable {key}

/-- Settling one base does not touch what another one puts in. -/
theorem settleFillings_settle {other : BaseKey} (different : other ≠ key) :
    (benchmark.settle order key now evicted).settleFillings order other now evicted =
      benchmark.settleFillings order other now evicted := by
  unfold settleFillings
  rw [settle_pending, settle_config, AList.lookup_erase_ne different]

end Settle

/-- Settling different bases one after the other puts in what each of them holds. -/
theorem fed_settleMany (now : Nat) {keys : List BaseKey} (distinct : keys.Nodup) :
    Fed order (keys.flatMap fun key => benchmark.settleFillings order key now false)
      (loopLosses (fun state key => state.settle order key now false)
        (fun state key => state.settleLosses order key now false) benchmark keys)
      benchmark (keys.foldl (fun state key => state.settle order key now false) benchmark) := by
  induction keys generalizing benchmark with
  | nil => exact Fed.refl benchmark
  | cons key rest ih =>
      obtain ⟨absent, restDistinct⟩ := List.nodup_cons.mp distinct
      have later := ih (benchmark.settle order key now false) restDistinct
      have same : (rest.flatMap fun other =>
          (benchmark.settle order key now false).settleFillings order other now false) =
          rest.flatMap fun other => benchmark.settleFillings order other now false :=
        List.flatMap_congr fun other member =>
          settleFillings_settle order benchmark now false fun equal => absent (equal ▸ member)
      rw [same] at later
      exact (fed_settle order benchmark key now false).trans later

theorem nodup_expired (now : Nat) : (benchmark.expired order now).Nodup := by
  have distinct : ((order.arrange benchmark.pending.entries).map Sigma.fst).Nodup :=
    ((order.perm benchmark.pending.entries).map Sigma.fst).nodup_iff.mpr
      benchmark.pending.nodupKeys
  exact distinct.sublist (List.filter_sublist.map Sigma.fst)

theorem marks_tickLosses (now : Nat) :
    (benchmark.tickLosses order now).map Loss.mark =
      (benchmark.fed order (benchmark.tickFillings order now)).2 :=
  (fed_settleMany order benchmark now (nodup_expired order benchmark now)).marks

/-! ## Events -/

theorem fed_store (event : MarketEvent) :
    Fed order (benchmark.storeFillings order event) (benchmark.storeLosses order event) benchmark
      (benchmark.store order event) := by
  rw [store_eq]
  unfold storeFillings storeLosses
  by_cases full : benchmark.Overflowing event
  · rw [if_pos full, if_pos full, if_pos full]
    exact Fed.single rfl
      (containers_updateWindow _ event.key.coin
        (fun window => window.markIntegrityLoss event.received) (fun _ => rfl) fun _ => rfl) rfl
  rw [if_neg full, if_neg full, if_neg full]
  by_cases duplicate : (benchmark.openedCandidate event).hasArrival event.provider = true
  · rw [if_pos duplicate, if_pos duplicate, if_pos duplicate]
    exact Fed.of_same rfl rfl
  rw [if_neg duplicate, if_neg duplicate, if_neg duplicate]
  by_cases alone : benchmark.config.providers.length = 1
  · rw [if_pos alone, if_pos alone, if_pos alone]
    have settled := fed_settle_of_lookup order
      (benchmark.withPending event.key.base (benchmark.heldBase event
        (withArrival (benchmark.openedCandidate event) event))) event.received false
      (withPending_lookup benchmark event.key.base _)
    have held : Fed order [] [] benchmark (benchmark.withPending event.key.base
        (benchmark.heldBase event (withArrival (benchmark.openedCandidate event) event))) :=
      Fed.of_same rfl rfl
    exact held.trans settled
  · rw [if_neg alone, if_neg alone, if_neg alone]
    exact Fed.of_same rfl rfl

/-- Storing an event looks at its own base only. -/
theorem storeFillings_settle {event : MarketEvent} {oldest : BaseKey}
    (different : event.key.base ≠ oldest) (now : Nat) (evicted : Bool) :
    (benchmark.settle order oldest now evicted).storeFillings order event =
      benchmark.storeFillings order event := by
  have opened : (benchmark.settle order oldest now evicted).openedBase event =
      benchmark.openedBase event := by
    unfold openedBase
    rw [settle_pending, AList.lookup_erase_ne different]
  have candidate : (benchmark.settle order oldest now evicted).openedCandidate event =
      benchmark.openedCandidate event := by
    unfold openedCandidate
    rw [opened]
  have full : (benchmark.settle order oldest now evicted).Overflowing event ↔
      benchmark.Overflowing event := by
    unfold Overflowing
    rw [opened]
  simp only [storeFillings, full, candidate, heldBase, opened, settle_config]

theorem fed_makeRoom (base : BaseKey) (received : Nat) :
    Fed order ((benchmark.evicting order base).elim [] fun oldest =>
        benchmark.settleFillings order oldest received true)
      (benchmark.makeRoomLosses order base received) benchmark
      (benchmark.makeRoom order base received) := by
  unfold evicting makeRoomLosses makeRoom
  by_cases full : base ∉ benchmark.pending ∧
      benchmark.config.maxPending ≤ benchmark.pending.entries.length
  · rw [if_pos full, if_pos full, if_pos full]
    cases HashMap.oldest order PendingBase.firstObserved benchmark.pending with
    | none => exact Fed.refl benchmark
    | some oldest => exact fed_settle order benchmark oldest received true
  · rw [if_neg full, if_neg full, if_neg full]
    exact Fed.refl benchmark

/-- Storing an event after making room puts in what it would have without. -/
theorem storeFillings_makeRoom (event : MarketEvent) :
    (benchmark.makeRoom order event.key.base event.received).storeFillings order event =
      benchmark.storeFillings order event := by
  unfold makeRoom
  split
  · next full =>
      cases chosen : HashMap.oldest order PendingBase.firstObserved benchmark.pending with
      | none => rfl
      | some oldest =>
          refine storeFillings_settle order benchmark (fun same => full.1 ?_) event.received true
          rw [same]
          exact HashMap.oldest_mem chosen
  · rfl

theorem sealOverdueLosses_of_timely {base : BaseKey} {received : Nat}
    (inTime : ∀ pending, benchmark.pending.lookup base = some pending →
      received - pending.firstObserved < benchmark.config.cohortTimeout) :
    benchmark.sealOverdueLosses order base received = [] := by
  unfold sealOverdueLosses
  cases found : benchmark.pending.lookup base with
  | none => rfl
  | some pending => exact if_neg (Nat.not_le_of_lt (inTime pending found))

theorem sealOverdueLosses_of_overdue {base : BaseKey} {received : Nat} {pending : PendingBase}
    (found : benchmark.pending.lookup base = some pending)
    (late : benchmark.config.cohortTimeout ≤ received - pending.firstObserved) :
    benchmark.sealOverdueLosses order base received =
      benchmark.settleLosses order base received false := by
  unfold sealOverdueLosses
  rw [found]
  exact if_pos late

/-- An accepted event is classified against its sealed base or stored. -/
theorem recordAcceptedLosses_cases (event : MarketEvent) :
    (benchmark.FindsOverdue event ∧ benchmark.recordAcceptedLosses order event =
      (benchmark.bump event.key.coin event.provider { observed := 1 }).settleLosses order
        event.key.base event.received false) ∨
    (¬benchmark.FindsOverdue event ∧ event.key.base ∈ benchmark.settledBases ∧
      benchmark.recordAcceptedLosses order event = []) ∨
    (¬benchmark.FindsOverdue event ∧ event.key.base ∉ benchmark.settledBases ∧
      benchmark.recordAcceptedLosses order event =
        (benchmark.bump event.key.coin event.provider { observed := 1 }).makeRoomLosses order
          event.key.base event.received ++
        ((benchmark.bump event.key.coin event.provider { observed := 1 }).makeRoom order
          event.key.base event.received).storeLosses order event) := by
  unfold recordAcceptedLosses
  dsimp only
  rcases sealOverdue_cases order
      (benchmark.bump event.key.coin event.provider { observed := 1 })
      event.key.base event.received with ⟨same, inTime⟩ | ⟨pending, found, late, same⟩
  · have timely : ¬benchmark.FindsOverdue event :=
      fun ⟨pending, found, late⟩ => absurd (inTime pending found) (Nat.not_lt_of_le late)
    have none := sealOverdueLosses_of_timely order
      (benchmark.bump event.key.coin event.provider { observed := 1 }) inTime
    rw [same, none]
    by_cases isSealed : event.key.base ∈ benchmark.settledBases
    · exact Or.inr (Or.inl ⟨timely, isSealed, if_pos isSealed⟩)
    · exact Or.inr (Or.inr ⟨timely, isSealed, if_neg isSealed⟩)
  · rw [same, sealOverdueLosses_of_overdue order
      (benchmark.bump event.key.coin event.provider { observed := 1 }) found late]
    refine Or.inl ⟨⟨pending, found, late⟩, if_pos ?_⟩
    rw [settle_settledBases order _ _ _ _ found]
    exact insertSettledBase_mem order _ _ _

/-- What recording an accepted event puts in is what it loses. -/
theorem marks_recordAcceptedLosses {event : MarketEvent}
    (accepted : Accepted benchmark.config event) :
    (benchmark.recordAcceptedLosses order event).map Loss.mark =
      (benchmark.fed order (benchmark.recordFillings order event)).2 := by
  unfold recordFillings
  rw [if_neg (not_not.mpr accepted.active), if_neg (not_not.mpr accepted)]
  rcases recordAcceptedLosses_cases order benchmark event with
    ⟨overdue, same⟩ | ⟨timely, isSealed, same⟩ | ⟨timely, unsealed, same⟩
  · rw [same, if_pos overdue]
    exact (fed_settle order (benchmark.bump event.key.coin event.provider { observed := 1 })
      event.key.base event.received false).marks
  · rw [same, if_neg timely, if_pos isSealed]
    rfl
  · rw [same, if_neg timely, if_neg unsealed]
    have made := fed_makeRoom order
      (benchmark.bump event.key.coin event.provider { observed := 1 }) event.key.base
      event.received
    have stored := fed_store order ((benchmark.bump event.key.coin event.provider
      { observed := 1 }).makeRoom order event.key.base event.received) event
    rw [storeFillings_makeRoom] at stored
    exact (made.trans stored).marks

/-! ## The stamps of a call -/

theorem marks_recordMarketLosses (event : MarketEvent) :
    (benchmark.recordMarketLosses order event).map Loss.mark =
      (benchmark.fed order (benchmark.recordFillings order event)).2 := by
  by_cases active : event.provider ∉ benchmark.config.providers
  · unfold recordMarketLosses recordFillings
    rw [if_pos active, if_pos active]
    rfl
  by_cases accepted : Accepted benchmark.config event
  · have possible : ¬(event.key.eventMs = 0 ∨ event.receivedWallMs < event.key.eventMs) :=
      not_or.mpr ⟨Nat.ne_of_gt accepted.positive, Nat.not_lt.mpr accepted.past⟩
    unfold recordMarketLosses
    rw [if_neg active, if_neg possible]
    exact marks_recordAcceptedLosses order benchmark accepted
  · have refused : event.key.eventMs = 0 ∨ event.receivedWallMs < event.key.eventMs := by
      by_contra neither
      obtain ⟨set, past⟩ := not_or.mp neither
      exact accepted ⟨not_not.mp active, Nat.pos_of_ne_zero set, Nat.le_of_not_lt past⟩
    unfold recordMarketLosses recordFillings
    rw [if_neg active, if_pos refused, if_neg active, if_pos accepted]
    rfl

/-- A call loses entries and refuses events exactly where its stamps tell. -/
theorem exists_losses_step {call : Call} {after : Benchmark}
    (stepped : benchmark.step call = some after) :
    ∃ losses, Counted losses benchmark after ∧ losses.map Loss.mark = benchmark.stamps call := by
  cases call with
  | record order event =>
      refine ⟨benchmark.recordLosses order event, counted_record order benchmark stepped, ?_⟩
      cases event with
      | market event => exact marks_recordMarketLosses order benchmark event
      | reconnect provider coin => rfl
      | sequenceGap provider coin missing => rfl
      | replay provider coin messages hasGap => rfl
  | tick order now =>
      cases stepped
      exact ⟨_, counted_tick order benchmark now, marks_tickLosses order benchmark now⟩
  | windowEvents order now wallNowMs signals clock =>
      obtain ⟨⟨state, rows⟩, prepared, same⟩ := Option.map_eq_some_iff.mp stepped
      obtain ⟨interval, prepared⟩ := windowEvents_cases order benchmark prepared
      rw [← same, prepared]
      have counted := counted_tick order (benchmark.withPrepared none) now
      exact ⟨_, ⟨counted.tallies, counted.logged, counted.last⟩,
        marks_tickLosses order (benchmark.withPrepared none) now⟩
  | commitPreparedPublication =>
      cases stepped
      refine ⟨[], ?_, rfl⟩
      rcases commitPreparedPublication_cases benchmark with same | ⟨interval, _, _, _, same⟩
      · rw [same]
        exact Counted.of_same rfl fun _ _ => rfl
      · rw [same]
        refine ⟨fun coin tally => ?_, fun _ => rfl, fun _ => rfl⟩
        cases tally <;> rfl
  | rejectPreparedPublication =>
      cases stepped
      exact ⟨[], Counted.of_same rfl fun _ _ => rfl, rfl⟩

/-- The instants that a call stamps on a coin, in order. -/
def stampsOn (call : Call) (coin : String) : List Nat :=
  ((benchmark.stamps call).filter fun mark => decide (mark.1 = coin)).map Prod.snd

/-- On each coin a call logs its stamps, and the last of them is the last loss. -/
theorem stampsOn_step {call : Call} {after : Benchmark}
    (stepped : benchmark.step call = some after) (coin : String) :
    (after.windows coin).losses =
        (benchmark.stampsOn call coin).reverse ++ (benchmark.windows coin).losses ∧
      (after.windows coin).lastIntegrityLoss =
        (benchmark.stampsOn call coin).getLast?.or (benchmark.windows coin).lastIntegrityLoss := by
  obtain ⟨losses, counted, marks⟩ := exists_losses_step benchmark stepped
  have same : Loss.stamps coin losses = benchmark.stampsOn call coin := by
    rw [Loss.stamps_eq, marks]
    rfl
  rw [← same]
  exact ⟨counted.logged coin, counted.last coin⟩

end Benchmark

end MarketBenchmark
