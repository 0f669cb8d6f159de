import MarketBenchmark.Benchmark.Losses
import MarketBenchmark.Benchmark.Sealing

/-!
# What the containers keep

Between two states an entry stays where it is, is among the losses, or goes
for a reason that is no cap: its base is settled in time, its key is settled
anew, or it leaves the rolling window.
-/

namespace MarketBenchmark

open Foundation.HashMaps
open Foundation.TimedRing

/-- The reasons, other than caps, for which entries go. -/
structure Grounds where
  /-- The base is settled because its timeout passed or nobody is waited for. -/
  timely : BaseKey → Prop
  /-- The base is settled, for this reason or because it is evicted. -/
  settles : BaseKey → Prop
  /-- A sample of this instant left the rolling window. -/
  aged : Nat → Prop

/-- Nothing left a container but the losses and what went on these grounds. -/
structure Retained (grounds : Grounds) (losses : List Loss) (before after : Benchmark) :
    Prop where
  pending : ∀ base, base ∈ before.pending → base ∈ after.pending ∨
    .pendingBase base ∈ losses.map Loss.lost ∨ grounds.timely base
  settledBases : ∀ base settledAt, before.settledBases.lookup base = some settledAt →
    after.settledBases.lookup base = some settledAt ∨
      .settledBase base ∈ losses.map Loss.lost ∨ grounds.aged settledAt
  settled : ∀ key cohort, before.settled.lookup key = some cohort →
    after.settled.lookup key = some cohort ∨
      .settled key ∈ losses.map Loss.lost ∨ grounds.settles key.base ∨
      grounds.aged cohort.settledAt
  cohorts : ∀ coin, ∃ gone : Multiset CommittedCohort,
    (∀ entry ∈ gone, grounds.aged entry.committedAt) ∧
    ((before.windows coin).cohorts : Multiset CommittedCohort) ≤
      (after.windows coin).cohorts + losses.filterMap (Loss.droppedCohort coin) + gone
  coverage : ∀ coin, ∃ gone : Multiset CoverageCohort,
    (∀ entry ∈ gone, grounds.aged entry.settledAt) ∧
    ((before.windows coin).coverage : Multiset CoverageCohort) ≤
      (after.windows coin).coverage + losses.filterMap (Loss.droppedCoverage coin) + gone

namespace Retained

variable {grounds : Grounds} {first second third : Benchmark} {losses early late : List Loss}

/-- A change that takes nothing out of a container. -/
theorem of_kept (pending : ∀ base, base ∈ first.pending → base ∈ second.pending)
    (settledBases : second.settledBases = first.settledBases)
    (settled : second.settled = first.settled)
    (cohorts : ∀ coin, (second.windows coin).cohorts = (first.windows coin).cohorts)
    (coverage : ∀ coin, (second.windows coin).coverage = (first.windows coin).coverage) :
    Retained grounds losses first second where
  pending base present := Or.inl (pending base present)
  settledBases base settledAt found := Or.inl (by rw [settledBases, found])
  settled key cohort found := Or.inl (by rw [settled, found])
  cohorts coin := by
    refine ⟨0, nofun, ?_⟩
    rw [cohorts, add_zero]
    exact Multiset.le_add_right _ _
  coverage coin := by
    refine ⟨0, nofun, ?_⟩
    rw [coverage, add_zero]
    exact Multiset.le_add_right _ _

theorem refl (benchmark : Benchmark) : Retained grounds losses benchmark benchmark :=
  of_kept (fun _ present => present) rfl rfl (fun _ => rfl) fun _ => rfl

/-- Entries of a multiset that two changes in a row keep, lose or let go. -/
theorem le_of_le_of_le {Entry : Type} {before middle after dropped moreDropped gone moreGone :
      Multiset Entry}
    (left : before ≤ middle + dropped + gone) (right : middle ≤ after + moreDropped + moreGone) :
    before ≤ after + (dropped + moreDropped) + (gone + moreGone) := by
  calc before ≤ middle + dropped + gone := left
    _ ≤ after + moreDropped + moreGone + dropped + gone :=
        Multiset.add_le_add_right (Multiset.add_le_add_right right)
    _ = after + (dropped + moreDropped) + (gone + moreGone) := by ac_rfl

theorem trans (left : Retained grounds early first second)
    (right : Retained grounds late second third) :
    Retained grounds (early ++ late) first third where
  pending base present := by
    rw [List.map_append, List.mem_append]
    rcases left.pending base present with kept | lost | timely
    · rcases right.pending base kept with kept | lost | timely
      · exact Or.inl kept
      · exact Or.inr (Or.inl (Or.inr lost))
      · exact Or.inr (Or.inr timely)
    · exact Or.inr (Or.inl (Or.inl lost))
    · exact Or.inr (Or.inr timely)
  settledBases base settledAt found := by
    rw [List.map_append, List.mem_append]
    rcases left.settledBases base settledAt found with kept | lost | other
    · rcases right.settledBases base settledAt kept with kept | lost | other
      · exact Or.inl kept
      · exact Or.inr (Or.inl (Or.inr lost))
      · exact Or.inr (Or.inr other)
    · exact Or.inr (Or.inl (Or.inl lost))
    · exact Or.inr (Or.inr other)
  settled key cohort found := by
    rw [List.map_append, List.mem_append]
    rcases left.settled key cohort found with kept | lost | other
    · rcases right.settled key cohort kept with kept | lost | other
      · exact Or.inl kept
      · exact Or.inr (Or.inl (Or.inr lost))
      · exact Or.inr (Or.inr other)
    · exact Or.inr (Or.inl (Or.inl lost))
    · exact Or.inr (Or.inr other)
  cohorts coin := by
    obtain ⟨gone, aged, within⟩ := left.cohorts coin
    obtain ⟨more, moreAged, moreWithin⟩ := right.cohorts coin
    refine ⟨gone + more, ?_, ?_⟩
    · intro entry member
      exact (Multiset.mem_add.mp member).elim (aged entry) (moreAged entry)
    · rw [List.filterMap_append, ← Multiset.coe_add]
      exact le_of_le_of_le within moreWithin
  coverage coin := by
    obtain ⟨gone, aged, within⟩ := left.coverage coin
    obtain ⟨more, moreAged, moreWithin⟩ := right.coverage coin
    refine ⟨gone + more, ?_, ?_⟩
    · intro entry member
      exact (Multiset.mem_add.mp member).elim (aged entry) (moreAged entry)
    · rw [List.filterMap_append, ← Multiset.coe_add]
      exact le_of_le_of_le within moreWithin

end Retained

namespace Benchmark

variable (grounds : Grounds) (order : IterationOrder) (benchmark : Benchmark)

/-! ## Tombstones -/

theorem retained_insertSettledBase {key : BaseKey} (unsealed : key ∉ benchmark.settledBases)
    (settledAt : Nat) :
    Retained grounds (benchmark.insertSettledBaseLosses order settledAt) benchmark
      (benchmark.insertSettledBase order key settledAt) := by
  refine ⟨?_, ?_, ?_, ?_, ?_⟩
  · intro base present
    rw [insertSettledBase_pending]
    exact Or.inl present
  · intro base before found
    have same : base ≠ key := by
      rintro rfl
      exact unsealed (HashMap.mem_of_lookup found)
    unfold insertSettledBaseLosses insertSettledBase
    by_cases full : benchmark.config.maxSettled ≤ benchmark.settledBases.entries.length
    · rw [if_pos full, if_pos full]
      cases HashMap.oldest order (fun timestamp => timestamp) benchmark.settledBases with
      | none => exact Or.inl (HashMap.lookup_insert_eq_some.mpr (Or.inr ⟨same, found⟩))
      | some oldest =>
          by_cases evicted : base = oldest
          · rw [evicted]
            exact Or.inr (Or.inl List.mem_cons_self)
          · refine Or.inl (HashMap.lookup_insert_eq_some.mpr (Or.inr ⟨same, ?_⟩))
            exact HashMap.lookup_erase_eq_some.mpr ⟨evicted, found⟩
    · rw [if_neg full, if_neg full]
      exact Or.inl (HashMap.lookup_insert_eq_some.mpr (Or.inr ⟨same, found⟩))
  · intro event cohort found
    rw [insertSettledBase_settled]
    exact Or.inl found
  · intro coin
    refine ⟨0, nofun, ?_⟩
    rw [insertSettledBase_windows order benchmark key settledAt CoinWindow.cohorts
      (fun _ _ => rfl), add_zero]
    exact Multiset.le_add_right _ _
  · intro coin
    refine ⟨0, nofun, ?_⟩
    rw [insertSettledBase_windows order benchmark key settledAt CoinWindow.coverage
      (fun _ _ => rfl), add_zero]
    exact Multiset.le_add_right _ _

theorem retained_insertSettled {key : EventKey} (settles : grounds.settles key.base)
    (settled : SettledCohort) :
    Retained grounds (benchmark.insertSettledLosses order settled.settledAt) benchmark
      (benchmark.insertSettled order key settled) := by
  refine ⟨?_, ?_, ?_, ?_, ?_⟩
  · intro base present
    rw [insertSettled_pending]
    exact Or.inl present
  · intro base settledAt found
    rw [insertSettled_settledBases]
    exact Or.inl found
  · intro event cohort found
    by_cases same : event = key
    · rw [same]
      exact Or.inr (Or.inr (Or.inl settles))
    unfold insertSettledLosses insertSettled
    by_cases full : benchmark.config.maxSettled ≤ benchmark.settled.entries.length
    · rw [if_pos full, if_pos full]
      cases HashMap.oldest order SettledCohort.settledAt benchmark.settled with
      | none => exact Or.inl (HashMap.lookup_insert_eq_some.mpr (Or.inr ⟨same, found⟩))
      | some oldest =>
          by_cases evicted : event = oldest
          · rw [evicted]
            exact Or.inr (Or.inl List.mem_cons_self)
          · refine Or.inl (HashMap.lookup_insert_eq_some.mpr (Or.inr ⟨same, ?_⟩))
            exact HashMap.lookup_erase_eq_some.mpr ⟨evicted, found⟩
    · rw [if_neg full, if_neg full]
      exact Or.inl (HashMap.lookup_insert_eq_some.mpr (Or.inr ⟨same, found⟩))
  · intro coin
    refine ⟨0, nofun, ?_⟩
    rw [insertSettled_windows order benchmark key settled CoinWindow.cohorts
      (fun _ _ => rfl), add_zero]
    exact Multiset.le_add_right _ _
  · intro coin
    refine ⟨0, nofun, ?_⟩
    rw [insertSettled_windows order benchmark key settled CoinWindow.coverage
      (fun _ _ => rfl), add_zero]
    exact Multiset.le_add_right _ _

/-! ## Settling -/

section Sampling

variable (key : EventKey) (candidate : PendingCandidate) (now : Nat) (seen : Provider → Bool)

theorem droppedCohort_sampleLosses (config : BenchmarkConfig) (window : CoinWindow) :
    (sampleLosses key candidate now seen config window).filterMap (Loss.droppedCohort key.coin) =
      if candidate.complete config.providers then
        (overflow CommittedCohort.committedAt config.maxRollingCohorts window.cohorts
          (cohortEntry config key candidate (window.completeCohorts + 1))).toList
      else [] := by
  unfold sampleLosses
  rw [List.filterMap_append, List.filterMap_map, List.filterMap_map]
  have coverage : (Loss.droppedCohort key.coin ∘ fun entry => (⟨.coverage key.coin entry, now⟩ :
      Loss)) = fun _ => none := rfl
  have cohorts : (Loss.droppedCohort key.coin ∘ fun entry => (⟨.cohort key.coin entry, now⟩ :
      Loss)) = some := by
    funext entry
    exact if_pos rfl
  rw [coverage, cohorts, List.filterMap_some, List.filterMap_none, List.nil_append]

theorem droppedCoverage_sampleLosses (config : BenchmarkConfig) (window : CoinWindow) :
    (sampleLosses key candidate now seen config window).filterMap
        (Loss.droppedCoverage key.coin) =
      (overflow CoverageCohort.settledAt config.maxRollingCohorts window.coverage
        (coverageEntry config key candidate now seen)).toList := by
  unfold sampleLosses
  rw [List.filterMap_append, List.filterMap_map, List.filterMap_map]
  have coverage : (Loss.droppedCoverage key.coin ∘ fun entry =>
      (⟨.coverage key.coin entry, now⟩ : Loss)) = some := by
    funext entry
    exact if_pos rfl
  have cohorts : (Loss.droppedCoverage key.coin ∘ fun entry =>
      (⟨.cohort key.coin entry, now⟩ : Loss)) = fun _ => none := rfl
  rw [coverage, cohorts, List.filterMap_some, List.filterMap_none, List.append_nil]

/-- A ring with a new entry keeps what it held, but for the entry it drops. -/
theorem ring_le_insertCapped {Entry : Type} (stamp : Entry → Nat) (cap : Nat)
    (ring : List Entry) (entry : Entry) :
    (ring : Multiset Entry) ≤
      insertCapped stamp cap ring entry + (overflow stamp cap ring entry).toList + 0 := by
  rw [Multiset.coe_add, Multiset.coe_eq_coe.mpr (insertCapped_append_overflow stamp cap ring entry),
    add_zero]
  exact Multiset.coe_le.mpr (List.sublist_cons_self entry ring).subperm

theorem retained_sampleWindow :
    Retained grounds
      (sampleLosses key candidate now seen benchmark.config (benchmark.windows key.coin)) benchmark
      (benchmark.updateWindow key.coin (sampleWindow benchmark.config key candidate now seen)) := by
  refine ⟨fun _ present => Or.inl present, fun _ _ found => Or.inl found,
    fun _ _ found => Or.inl found, ?_, ?_⟩
  · intro coin
    refine ⟨0, nofun, ?_⟩
    rw [updateWindow_windows]
    by_cases own : coin = key.coin
    · subst own
      rw [if_pos rfl, sampleWindow_cohorts, droppedCohort_sampleLosses]
      split
      · exact ring_le_insertCapped _ _ _ _
      · rw [add_zero]
        exact Multiset.le_add_right _ _
    · rw [if_neg own, add_zero]
      exact Multiset.le_add_right _ _
  · intro coin
    refine ⟨0, nofun, ?_⟩
    rw [updateWindow_windows]
    by_cases own : coin = key.coin
    · subst own
      rw [if_pos rfl, sampleWindow_coverage, droppedCoverage_sampleLosses]
      exact ring_le_insertCapped _ _ _ _
    · rw [if_neg own, add_zero]
      exact Multiset.le_add_right _ _

theorem retained_finalizeCandidate (settles : grounds.settles key.base) :
    Retained grounds (benchmark.finalizeCandidateLosses order key candidate now seen) benchmark
      (benchmark.finalizeCandidate order key candidate now seen) := by
  rw [finalizeCandidate_eq, finalizeCandidateLosses_eq]
  generalize benchmark.config.providers.foldl (fun counters provider =>
    CounterTable.bump counters key.coin provider (outcomeOf candidate seen provider).increment)
    benchmark.counters = table
  have sampled : Retained grounds _ { benchmark with counters := table } _ :=
    retained_sampleWindow grounds { benchmark with counters := table } key candidate now seen
  have settled := retained_insertSettled grounds order
    ({ benchmark with counters := table }.updateWindow key.coin
      (sampleWindow benchmark.config key candidate now seen)) settles
    { settledAt := sampleStamp benchmark.config candidate now
      matchedMask := fun provider =>
        decide (provider ∈ benchmark.config.providers) && candidate.hasArrival provider }
  have both := sampled.trans settled
  exact ⟨both.pending, both.settledBases, both.settled, both.cohorts, both.coverage⟩

end Sampling

/-- A loop retains what every item retains. -/
theorem retained_loop {Item : Type} (next : Benchmark → Item → Benchmark)
    (losses : Benchmark → Item → List Loss) (items : List Item) (Holds : Benchmark → Prop)
    (init : Holds benchmark) (kept : ∀ state item, Holds state → Holds (next state item))
    (retained : ∀ state, ∀ item ∈ items, Holds state →
      Retained grounds (losses state item) state (next state item)) :
    Retained grounds (loopLosses next losses benchmark items) benchmark
      (items.foldl next benchmark) := by
  induction items generalizing benchmark with
  | nil => exact Retained.refl benchmark
  | cons item rest ih =>
      refine (retained benchmark item List.mem_cons_self init).trans ?_
      refine ih (next benchmark item) (kept benchmark item init) ?_
      exact fun state other member => retained state other (List.mem_cons_of_mem item member)

/-- Sealing takes the base out of the pending map, in time or as a loss. -/
theorem retained_sealBase {key : BaseKey} (pending : PendingBase) (now : Nat) {evicted : Bool}
    (unsealed : key ∉ benchmark.settledBases) (timely : evicted = false → grounds.timely key) :
    Retained grounds (benchmark.insertSettledBaseLosses order now ++
        if evicted then [⟨.pendingBase key, now⟩] else []) benchmark
      (benchmark.sealBase order key pending now evicted) := by
  have inserted := retained_insertSettledBase grounds order benchmark unsealed now
  refine ⟨?_, ?_, ?_, ?_, ?_⟩
  · intro base present
    rw [sealBase_pending]
    by_cases same : base = key
    · rw [same]
      cases evicted with
      | false => exact Or.inr (Or.inr (timely rfl))
      | true =>
          refine Or.inr (Or.inl ?_)
          rw [List.map_append]
          exact List.mem_append_right _ List.mem_cons_self
    · exact Or.inl (AList.mem_erase.mpr ⟨same, present⟩)
  · intro base settledAt found
    rw [sealBase_settledBases, List.map_append]
    refine (inserted.settledBases base settledAt found).imp_right fun gone => ?_
    exact gone.imp_left fun lost => List.mem_append_left _ lost
  · intro event cohort found
    rw [sealBase_settled]
    exact Or.inl found
  · intro coin
    refine ⟨0, nofun, ?_⟩
    rw [sealBase_windows order benchmark key pending now evicted CoinWindow.cohorts
      (fun _ _ => rfl), add_zero]
    exact Multiset.le_add_right _ _
  · intro coin
    refine ⟨0, nofun, ?_⟩
    rw [sealBase_windows order benchmark key pending now evicted CoinWindow.coverage
      (fun _ _ => rfl), add_zero]
    exact Multiset.le_add_right _ _

/-- Pending bases are not sealed, and hold candidates of their own. -/
structure Tidy (benchmark : Benchmark) : Prop where
  apart : benchmark.Apart
  keyed : benchmark.Keyed

theorem Tidy.settle {benchmark : Benchmark} (tidy : benchmark.Tidy) (order : IterationOrder)
    (key : BaseKey) (now : Nat) (evicted : Bool) :
    (benchmark.settle order key now evicted).Tidy :=
  ⟨tidy.apart.settle key now evicted, tidy.keyed.settle key now evicted⟩

theorem retained_settle (tidy : benchmark.Tidy) {key : BaseKey} (now : Nat) {evicted : Bool}
    (settles : grounds.settles key) (timely : evicted = false → grounds.timely key) :
    Retained grounds (benchmark.settleLosses order key now evicted) benchmark
      (benchmark.settle order key now evicted) := by
  unfold settleLosses
  cases found : benchmark.pending.lookup key with
  | none =>
      rw [settle_of_lookup_none order benchmark now evicted found]
      exact Retained.refl benchmark
  | some pending =>
      rw [settle_of_lookup order benchmark now evicted found]
      have unsealed := tidy.apart key (HashMap.mem_of_lookup found)
      refine (retained_sealBase grounds order benchmark pending now unsealed timely).trans ?_
      refine retained_loop grounds _ _ _ _ (fun _ => True) trivial (fun _ _ _ => trivial) ?_
      intro state entry member _
      obtain ⟨stored, present, _⟩ := mem_admitted order (List.mem_filter.mp member).1
      have own := tidy.keyed key pending found entry.1 (HashMap.mem_of_lookup present)
      refine retained_finalizeCandidate grounds order state (eventKey key entry.1) entry.2 now _ ?_
      rw [own]
      exact settles

/-- A filtered ring keeps what it held, but for the entries that fail the test. -/
theorem ring_le_filter {Entry : Type} (test : Entry → Bool) (ring : List Entry) :
    (ring : Multiset Entry) ≤
      (ring.filter test : List Entry) + ([] : List Entry) +
        (ring.filter fun entry => !test entry : List Entry) := by
  rw [Multiset.coe_nil, add_zero, Multiset.coe_add]
  exact Multiset.coe_le.mpr (List.filter_append_perm test ring).symm.subperm

/-- Pruning lets go what left the rolling window. -/
theorem retained_prune {now : Nat}
    (aged : ∀ stamp, benchmark.config.rollingWindow < now - stamp → grounds.aged stamp) :
    Retained grounds [] benchmark (benchmark.prune now) := by
  refine ⟨fun _ present => Or.inl present, ?_, ?_, ?_, ?_⟩
  · intro base settledAt found
    by_cases fresh : now - settledAt ≤ benchmark.config.rollingWindow
    · exact Or.inl (HashMap.lookup_retain_eq_some.mpr ⟨found, decide_eq_true fresh⟩)
    · exact Or.inr (Or.inr (aged settledAt (Nat.lt_of_not_le fresh)))
  · intro key cohort found
    by_cases fresh : now - cohort.settledAt ≤ benchmark.config.rollingWindow
    · exact Or.inl (HashMap.lookup_retain_eq_some.mpr ⟨found, decide_eq_true fresh⟩)
    · exact Or.inr (Or.inr (Or.inr (aged cohort.settledAt (Nat.lt_of_not_le fresh))))
  · intro coin
    refine ⟨((benchmark.windows coin).cohorts.filter fun cohort =>
      !decide (now - cohort.committedAt ≤ benchmark.config.rollingWindow) : List _), ?_, ?_⟩
    · intro entry member
      have old := (List.mem_filter.mp (Multiset.mem_coe.mp member)).2
      rw [Bool.not_eq_true', decide_eq_false_iff_not] at old
      exact aged _ (Nat.lt_of_not_le old)
    · exact ring_le_filter _ _
  · intro coin
    refine ⟨((benchmark.windows coin).coverage.filter fun cohort =>
      !decide (now - cohort.settledAt ≤ benchmark.config.rollingWindow) : List _), ?_, ?_⟩
    · intro entry member
      have old := (List.mem_filter.mp (Multiset.mem_coe.mp member)).2
      rw [Bool.not_eq_true', decide_eq_false_iff_not] at old
      exact aged _ (Nat.lt_of_not_le old)
    · exact ring_le_filter _ _

theorem retained_tick (tidy : benchmark.Tidy) {now : Nat}
    (timely : ∀ key pending, benchmark.pending.lookup key = some pending →
      benchmark.config.cohortTimeout ≤ now - pending.firstObserved →
      grounds.timely key ∧ grounds.settles key)
    (aged : ∀ stamp, benchmark.config.rollingWindow < now - stamp → grounds.aged stamp) :
    Retained grounds (benchmark.tickLosses order now) benchmark (benchmark.tick order now) := by
  have settled : Retained grounds (benchmark.tickLosses order now) benchmark
      ((benchmark.expired order now).foldl
        (fun state key => state.settle order key now false) benchmark) := by
    refine retained_loop grounds benchmark (fun state key => state.settle order key now false)
      (fun state key => state.settleLosses order key now false) _ Tidy tidy
      (fun state key held => held.settle order key now false) ?_
    intro state key member held
    obtain ⟨pending, found, overdue⟩ := (mem_expired order benchmark).mp member
    obtain ⟨isTimely, settles⟩ := timely key pending found overdue
    exact retained_settle grounds order state held now settles fun _ => isTimely
  have sameConfig : ((benchmark.expired order now).foldl
      (fun state key => state.settle order key now false) benchmark).config = benchmark.config :=
    tick_config order benchmark now
  have pruneAged : ∀ stamp, ((benchmark.expired order now).foldl
      (fun state key => state.settle order key now false) benchmark).config.rollingWindow <
        now - stamp → grounds.aged stamp := by
    rw [sameConfig]
    exact aged
  have pruned := settled.trans (retained_prune grounds _ pruneAged)
  rw [List.append_nil] at pruned
  exact pruned

/-! ## Recording -/

theorem retained_bump (coin : String) (provider : Provider) (increment : ProviderCounters)
    (losses : List Loss) :
    Retained grounds losses benchmark (benchmark.bump coin provider increment) :=
  Retained.of_kept (fun _ present => present) rfl rfl (fun _ => rfl) fun _ => rfl

theorem retained_markIntegrityLoss (coin : String) (now : Nat) (losses : List Loss) :
    Retained grounds losses benchmark (benchmark.markIntegrityLoss coin now) := by
  refine Retained.of_kept (fun _ present => present) rfl rfl ?_ ?_
  · intro other
    unfold markIntegrityLoss
    rw [updateWindow_windows]
    split <;> rfl
  · intro other
    unfold markIntegrityLoss
    rw [updateWindow_windows]
    split <;> rfl

theorem retained_withPending (base : BaseKey) (cohort : PendingBase) (losses : List Loss) :
    Retained grounds losses benchmark (benchmark.withPending base cohort) :=
  Retained.of_kept (fun _ present => (AList.mem_insert _).mpr (Or.inr present)) rfl rfl
    (fun _ => rfl) fun _ => rfl

theorem retained_sealOverdue (tidy : benchmark.Tidy) {base : BaseKey} {received : Nat}
    (timely : ∀ pending, benchmark.pending.lookup base = some pending →
      benchmark.config.cohortTimeout ≤ received - pending.firstObserved →
      grounds.timely base ∧ grounds.settles base) :
    Retained grounds (benchmark.sealOverdueLosses order base received) benchmark
      (benchmark.sealOverdue order base received) := by
  unfold sealOverdueLosses sealOverdue
  cases found : benchmark.pending.lookup base with
  | none => exact Retained.refl benchmark
  | some pending =>
      dsimp only
      by_cases overdue : benchmark.config.cohortTimeout ≤ received - pending.firstObserved
      · rw [if_pos overdue, if_pos overdue]
        obtain ⟨isTimely, settles⟩ := timely pending found overdue
        exact retained_settle grounds order benchmark tidy received settles fun _ => isTimely
      · rw [if_neg overdue, if_neg overdue]
        exact Retained.refl benchmark

/-- An evicted base is among the losses of its settlement. -/
theorem pendingBase_mem_settleLosses {key : BaseKey} (present : key ∈ benchmark.pending)
    (now : Nat) :
    .pendingBase key ∈ (benchmark.settleLosses order key now true).map Loss.lost := by
  obtain ⟨pending, found⟩ := HashMap.exists_lookup_of_mem present
  unfold settleLosses
  rw [found]
  refine List.mem_map.mpr ⟨⟨.pendingBase key, now⟩, ?_, rfl⟩
  exact List.mem_append_left _ (List.mem_append_right _ List.mem_cons_self)

theorem retained_makeRoom (tidy : benchmark.Tidy) {base : BaseKey} {received : Nat}
    (settles : ∀ oldest,
      .pendingBase oldest ∈ (benchmark.makeRoomLosses order base received).map Loss.lost →
      grounds.settles oldest) :
    Retained grounds (benchmark.makeRoomLosses order base received) benchmark
      (benchmark.makeRoom order base received) := by
  unfold makeRoomLosses at settles ⊢
  unfold makeRoom
  by_cases full : base ∉ benchmark.pending ∧
      benchmark.config.maxPending ≤ benchmark.pending.entries.length
  · rw [if_pos full] at settles ⊢
    rw [if_pos full]
    cases chosen : HashMap.oldest order PendingBase.firstObserved benchmark.pending with
    | none => exact Retained.refl benchmark
    | some oldest =>
        rw [chosen] at settles
        have evicted := settles oldest
          (pendingBase_mem_settleLosses order benchmark (HashMap.oldest_mem chosen) received)
        exact retained_settle grounds order benchmark tidy received evicted nofun
  · rw [if_neg full, if_neg full]
    exact Retained.refl benchmark

theorem retained_store (tidy : benchmark.Tidy) {event : MarketEvent}
    (unsealed : event.key.base ∉ benchmark.settledBases)
    (timely : benchmark.config.providers.length = 1 →
      grounds.timely event.key.base ∧ grounds.settles event.key.base) :
    Retained grounds (benchmark.storeLosses order event) benchmark
      (benchmark.store order event) := by
  rw [store_eq]
  unfold storeLosses
  split_ifs with overflowing arrived single
  · have stored := retained_withPending grounds benchmark event.key.base
      (benchmark.openedBase event) []
    have refused := stored.trans (retained_bump grounds _ event.key.coin event.provider
      { signatureOverflow := 1 } [])
    exact refused.trans (retained_markIntegrityLoss grounds _ event.key.coin event.received
      [⟨.candidate event.key event.provider, event.received⟩])
  · exact (retained_withPending grounds benchmark event.key.base _ []).trans
      (retained_bump grounds _ event.key.coin event.provider _ [])
  · obtain ⟨isTimely, settles⟩ := timely single
    have stored := retained_withPending grounds benchmark event.key.base
      (benchmark.heldBase event (withArrival (benchmark.openedCandidate event) event)) []
    have storedTidy : (benchmark.withPending event.key.base (benchmark.heldBase event
        (withArrival (benchmark.openedCandidate event) event))).Tidy :=
      ⟨tidy.apart.withPending _ unsealed,
        tidy.keyed.withPending fun _ present => tidy.keyed.heldBase event _ present⟩
    exact stored.trans (retained_settle grounds order _ storedTidy event.received settles
      fun _ => isTimely)
  · exact retained_withPending grounds benchmark event.key.base _ []

theorem retained_recordAccepted (tidy : benchmark.Tidy) {event : MarketEvent}
    (overdue : ∀ pending, benchmark.pending.lookup event.key.base = some pending →
      benchmark.config.cohortTimeout ≤ event.received - pending.firstObserved →
      grounds.timely event.key.base ∧ grounds.settles event.key.base)
    (single : benchmark.config.providers.length = 1 →
      grounds.timely event.key.base ∧ grounds.settles event.key.base)
    (evicted : ∀ oldest,
      .pendingBase oldest ∈ (benchmark.recordAcceptedLosses order event).map Loss.lost →
      grounds.settles oldest) :
    Retained grounds (benchmark.recordAcceptedLosses order event) benchmark
      (benchmark.recordAccepted order event) := by
  unfold recordAcceptedLosses at evicted ⊢
  unfold recordAccepted
  dsimp only at evicted ⊢
  have observed := retained_bump grounds benchmark event.key.coin event.provider
    { observed := 1 } []
  have counted : (benchmark.bump event.key.coin event.provider { observed := 1 }).Tidy :=
    ⟨tidy.apart, tidy.keyed⟩
  have sameConfig : (benchmark.bump event.key.coin event.provider { observed := 1 }).config =
      benchmark.config := rfl
  have samePending : (benchmark.bump event.key.coin event.provider { observed := 1 }).pending =
      benchmark.pending := rfl
  generalize benchmark.bump event.key.coin event.provider { observed := 1 } = state
    at evicted observed counted sameConfig samePending ⊢
  rw [← sameConfig, ← samePending] at overdue
  rw [← sameConfig] at single
  have sealed := observed.trans (retained_sealOverdue grounds order state counted overdue)
  have sealedTidy : (state.sealOverdue order event.key.base event.received).Tidy := by
    rcases sealOverdue_cases order state event.key.base event.received with
      ⟨same, _⟩ | ⟨_, _, _, same⟩
    · rw [same]
      exact counted
    · rw [same]
      exact counted.settle order event.key.base event.received false
  have sealedConfig : (state.sealOverdue order event.key.base event.received).config =
      state.config := by
    rcases sealOverdue_cases order state event.key.base event.received with
      ⟨same, _⟩ | ⟨_, _, _, same⟩
    · rw [same]
    · rw [same, settle_config]
  rw [List.nil_append] at sealed
  rw [← sealedConfig] at single
  generalize state.sealOverdue order event.key.base event.received = middle
    at evicted sealed sealedTidy single ⊢
  split
  · next isSealed =>
      have classified : Retained grounds [] middle (middle.recordSealed event) :=
        retained_bump grounds middle event.key.coin event.provider _ []
      have both := sealed.trans classified
      rw [List.append_nil] at both
      exact both
  · next unsealed =>
      rw [if_neg unsealed] at evicted
      have evictedHere : ∀ oldest, .pendingBase oldest ∈
          (middle.makeRoomLosses order event.key.base event.received).map Loss.lost →
          grounds.settles oldest := by
        intro oldest lost
        refine evicted oldest ?_
        rw [List.map_append, List.map_append]
        exact List.mem_append_left _ (List.mem_append_right _ lost)
      have room := retained_makeRoom grounds order middle sealedTidy evictedHere
      refine (sealed.trans room).trans ?_
      rcases makeRoom_cases order middle event.key.base event.received with
        same | ⟨oldest, absent, present, same⟩
      · rw [same]
        exact retained_store grounds order middle sealedTidy unsealed single
      · rw [same]
        refine retained_store grounds order _ (sealedTidy.settle order oldest event.received true)
          ?_ ?_
        · intro isSealed
          rcases mem_settledBases_settle isSealed with ⟨own, _⟩ | before
          · rw [own] at absent
            exact absent present
          · exact unsealed before
        · rw [settle_config]
          exact single

/-! ## Calls -/

/-- The base is settled by the call although no cap forces it: its timeout
passed, or the event comes from the only provider. -/
def TimelyIn (call : Call) (base : BaseKey) : Prop :=
  match call with
  | .record _ (.market event) => base = event.key.base ∧
      (benchmark.config.providers.length = 1 ∨
        ∃ pending, benchmark.pending.lookup base = some pending ∧
          benchmark.config.cohortTimeout ≤ event.received - pending.firstObserved)
  | .tick _ now => ∃ pending, benchmark.pending.lookup base = some pending ∧
      benchmark.config.cohortTimeout ≤ now - pending.firstObserved
  | _ => False

/-- A sample of this instant leaves the rolling window in the call. -/
def AgedIn (call : Call) (stamp : Nat) : Prop :=
  match call with
  | .tick _ now => benchmark.config.rollingWindow < now - stamp
  | _ => False

/-- The grounds, other than caps, on which entries go in a call. -/
def groundsOf (call : Call) : Grounds where
  timely := benchmark.TimelyIn call
  settles base := benchmark.TimelyIn call base ∨
    .pendingBase base ∈ (benchmark.losses call).map Loss.lost
  aged := benchmark.AgedIn call

theorem retained_record (tidy : benchmark.Tidy) {event : ProbeEvent} {after : Benchmark}
    (recorded : benchmark.record order event = some after) :
    Retained (benchmark.groundsOf (.record order event)) (benchmark.losses (.record order event))
      benchmark after := by
  rcases record_cases order benchmark recorded with
    ⟨market, rfl, recorded⟩ | ⟨_, provider, coin, increment, _, _, rfl⟩
  · rcases recordMarket_cases order benchmark recorded with
      ⟨_, rfl⟩ | ⟨_, _, _, increment, _, rfl⟩ | ⟨_, accepted, rfl⟩
    · exact Retained.refl after
    · exact (retained_bump _ benchmark market.key.coin market.provider increment []).trans
        (retained_markIntegrityLoss _ _ market.key.coin market.received _)
    · have listed : benchmark.losses (.record order (.market market)) =
          benchmark.recordAcceptedLosses order market := by
        change benchmark.recordMarketLosses order market = _
        unfold recordMarketLosses
        rw [if_neg (not_not.mpr accepted.active), if_neg]
        rintro (unset | future)
        · exact Nat.ne_of_gt accepted.positive unset
        · exact Nat.not_le_of_gt future accepted.past
      have both : benchmark.TimelyIn (.record order (.market market)) market.key.base →
          (benchmark.groundsOf (.record order (.market market))).timely market.key.base ∧
          (benchmark.groundsOf (.record order (.market market))).settles market.key.base :=
        fun timely => ⟨timely, Or.inl timely⟩
      have retained : Retained (benchmark.groundsOf (.record order (.market market)))
          (benchmark.recordAcceptedLosses order market) benchmark
          (benchmark.recordAccepted order market) := retained_recordAccepted _ order benchmark tidy
        (fun pending found overdue => both ⟨rfl, Or.inr ⟨pending, found, overdue⟩⟩)
        (fun single => both ⟨rfl, Or.inl single⟩)
        (fun oldest lost => Or.inr (by rw [listed]; exact lost))
      rw [listed]
      exact retained
  · exact retained_bump _ benchmark coin provider increment _

/-- Bases stay tidy along every run. -/
theorem Tidy.step {before after : Benchmark} {call : Call} (tidy : before.Tidy)
    (stepped : before.step call = some after) : after.Tidy := by
  refine ⟨tidy.apart.step stepped, ?_⟩
  refine step_induction Keyed stepped tidy.keyed ?_ ?_ ?_ ?_ ?_ ?_ ?_
  · exact fun _ _ _ _ _ => tidy.keyed
  · exact fun _ _ _ _ _ _ _ _ => tidy.keyed
  · exact fun _ _ _ _ _ => tidy.keyed.recordAccepted
  · exact fun _ _ key now _ _ _ held => held.settle key now false
  · exact fun _ _ _ _ held => held
  · exact fun _ _ held => held
  · exact fun _ _ _ _ => tidy.keyed

theorem Tidy.run {config : BenchmarkConfig} {startedAt startedWallMs : Nat} {calls : List Call}
    {final : Benchmark}
    (executed : Foundation.Runs.run Benchmark.step
      (Benchmark.new config startedAt startedWallMs) calls = some final) : final.Tidy := by
  refine Foundation.Runs.run_preserves Tidy (fun _ _ _ held stepped => held.step stepped)
    ⟨Apart.new config startedAt startedWallMs, ?_⟩ executed
  intro base pending found
  cases found

end Benchmark

end MarketBenchmark
