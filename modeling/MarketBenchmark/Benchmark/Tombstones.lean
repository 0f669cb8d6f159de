import MarketBenchmark.Benchmark.Registration
import MarketBenchmark.Benchmark.Sealing

/-!
# Tombstones outlive the samples they guard

As long as no bounded map overflows, every entry of a ring is guarded by the
tombstone of its base.  The tombstone is stamped no earlier than the entry, so
it is pruned no sooner, and while it stands nothing of the base enters a ring
again.  Both rings are treated at once, as views that list the stamps of their
entries.
-/

namespace MarketBenchmark

open Foundation.HashMaps
open Foundation.TimedRing
open Foundation.Runs

namespace Benchmark

variable {order : IterationOrder} {benchmark : Benchmark}

/-! ## Guarded rings -/

/-- No kept sample of the base was received after `now`. -/
def Timely (config : BenchmarkConfig) (order : IterationOrder) (pending : PendingBase)
    (now : Nat) : Prop :=
  ∀ content candidate, (content, candidate) ∈ canonical order config pending →
    candidate.complete config.providers = true → candidate.latestArrival config.providers ≤ now

/-- The arrivals of an overdue base are older than its settlement. -/
theorem timely_of_overdue {pending : PendingBase} {now : Nat}
    (late : benchmark.config.cohortTimeout ≤ now - pending.firstObserved) :
    Timely benchmark.config order pending now := by
  intro content candidate member complete
  obtain ⟨arrival, arrived⟩ := PendingCandidate.arrival_of_complete complete
    benchmark.config.referenceProvider_mem
  obtain ⟨latest, last, active, isLast, greatest⟩ := PendingCandidate.exists_latestArrival
    benchmark.config.referenceProvider_mem (Option.isSome_of_eq_some arrived)
  obtain ⟨stored, _, same⟩ := mem_admitted order (List.mem_of_mem_filter member)
  rw [same] at isLast
  obtain ⟨_, inTime⟩ := arrivals_withoutLate active isLast
  omega

end Benchmark

/-- The event of a ring entry and the instant it is stamped with. -/
structure Stamp where
  origin : EventKey
  instant : Nat

namespace CoinWindow

def cohortStamps (window : CoinWindow) : List Stamp :=
  window.cohorts.map fun cohort => { origin := cohort.origin, instant := cohort.committedAt }

def coverageStamps (window : CoinWindow) : List Stamp :=
  window.coverage.map fun entry => { origin := entry.origin, instant := entry.settledAt }

end CoinWindow

namespace Benchmark

variable {order : IterationOrder} {benchmark : Benchmark}

/-- What both rings have in common, seen as lists of stamps. -/
structure RingView (stamps : CoinWindow → List Stamp) : Prop where
  evicted : ∀ window now, stamps (CoinWindow.evictState window now) = stamps window
  marked : ∀ window now, stamps (CoinWindow.markIntegrityLoss window now) = stamps window
  reported : ∀ window through, stamps (markOutcomesReported window through) = stamps window
  pruned : ∀ window ttl now, stamps (CoinWindow.prune window ttl now) =
    (stamps window).filter fun stamp => decide (now - stamp.instant ≤ ttl)
  sampled : ∀ config key candidate now seen window, ∃ stamp whole, stamp.origin = key ∧
    ((candidate.complete config.providers = true →
      candidate.latestArrival config.providers ≤ now) → stamp.instant ≤ now) ∧
    whole.Perm (stamp :: stamps window) ∧
    (stamps (sampleWindow config key candidate now seen window)).Sublist whole

theorem cohortStamps_view : RingView CoinWindow.cohortStamps := by
  refine ⟨fun _ _ => rfl, fun _ _ => rfl, ?_, ?_, ?_⟩
  · intro window through
    unfold CoinWindow.cohortStamps markOutcomesReported
    rw [List.map_map]
    refine List.map_congr_left fun cohort _ => ?_
    dsimp only [Function.comp_apply]
    split <;> rfl
  · intro window ttl now
    unfold CoinWindow.cohortStamps CoinWindow.prune
    rw [List.filter_map]
    rfl
  · intro config key candidate now seen window
    unfold CoinWindow.cohortStamps
    rw [sampleWindow_cohorts]
    by_cases complete : candidate.complete config.providers = true
    · rw [if_pos complete]
      refine ⟨⟨key, candidate.latestArrival config.providers⟩, _, rfl,
        fun timely => timely complete, ?_, (insertCapped_sublist _ _ _ _).map _⟩
      exact (insertInOrder_perm _ _ _).map _
    · rw [if_neg complete]
      exact ⟨⟨key, now⟩, _, rfl, fun _ => Nat.le_refl now, List.Perm.refl _,
        List.sublist_cons_self _ _⟩

theorem coverageStamps_view : RingView CoinWindow.coverageStamps := by
  refine ⟨fun _ _ => rfl, fun _ _ => rfl, fun _ _ => rfl, ?_, ?_⟩
  · intro window ttl now
    unfold CoinWindow.coverageStamps CoinWindow.prune
    rw [List.filter_map]
    rfl
  · intro config key candidate now seen window
    unfold CoinWindow.coverageStamps
    rw [sampleWindow_coverage]
    refine ⟨⟨key, sampleStamp config candidate now⟩, _, rfl, ?_, ?_,
      (insertCapped_sublist _ _ _ _).map _⟩
    · intro timely
      dsimp only
      unfold sampleStamp
      split
      · next complete => exact timely complete
      · exact Nat.le_refl now
    · exact (insertInOrder_perm _ _ _).map _

section View

variable {stamps : CoinWindow → List Stamp}
  (view : RingView stamps)
include view

/-- Finalizing a candidate adds at most its own stamp, in the window of its coin. -/
theorem RingView.finalizeCandidate (order : IterationOrder) (state : Benchmark) (key : EventKey)
    (candidate : PendingCandidate) (now : Nat) (seen : Provider → Bool) (coin : String) :
    ∃ stamp whole, stamp.origin = key ∧
      ((candidate.complete state.config.providers = true →
        candidate.latestArrival state.config.providers ≤ now) → stamp.instant ≤ now) ∧
      whole.Perm (stamp :: stamps (state.windows coin)) ∧
      (stamps ((state.finalizeCandidate order key candidate now seen).windows coin)).Sublist
        (if coin = key.coin then whole else stamps (state.windows coin)) := by
  obtain ⟨stamp, whole, own, timely, perm, sub⟩ :=
    view.sampled state.config key candidate now seen (state.windows coin)
  refine ⟨stamp, whole, own, timely, perm, ?_⟩
  rw [finalizeCandidate_windows order state key candidate now seen stamps view.evicted]
  split
  · exact sub
  · exact List.Sublist.refl _

/-- Stamps in a ring after a settlement were there before, or belong to the settled base. -/
theorem RingView.mem_settle {key : BaseKey} {now : Nat} {evicted : Bool} {coin : String}
    {stamp : Stamp}
    (member : stamp ∈ stamps ((benchmark.settle order key now evicted).windows coin)) :
    stamp ∈ stamps (benchmark.windows coin) ∨
      ∃ pending, benchmark.pending.lookup key = some pending ∧ coin = key.coin ∧
        (∃ content, content ∈ pending.candidates ∧ stamp.origin = eventKey key content) ∧
        (Timely benchmark.config order pending now → stamp.instant ≤ now) := by
  cases found : benchmark.pending.lookup key with
  | none =>
      rw [settle_of_lookup_none order benchmark now evicted found] at member
      exact Or.inl member
  | some pending =>
      refine settle_induction order benchmark (fun state => ∀ stamp,
        stamp ∈ stamps (state.windows coin) → stamp ∈ stamps (benchmark.windows coin) ∨
          ∃ other, some pending = some other ∧ coin = key.coin ∧
            (∃ content, content ∈ other.candidates ∧ stamp.origin = eventKey key content) ∧
            (Timely benchmark.config order other now → stamp.instant ≤ now))
        found ?_ ?_ stamp member
      · intro stamp member
        rw [sealBase_windows order benchmark key pending now evicted stamps view.evicted]
          at member
        exact Or.inl member
      · intro state content candidate sameConfig canonicalMember held stamp member
        obtain ⟨new, whole, own, timely, perm, sub⟩ := view.finalizeCandidate order
          state (eventKey key content) candidate now
          (noncanonicalSeen benchmark.config (admitted order benchmark.config pending)) coin
        have inWhole := sub.subset member
        split at inWhole
        · next sameCoin =>
            rcases List.mem_cons.mp (perm.mem_iff.mp inWhole) with isNew | old
            · refine Or.inr ⟨pending, rfl, sameCoin, ⟨content, ?_, ?_⟩, ?_⟩
              · obtain ⟨stored, storedFound, _⟩ :=
                  mem_admitted order (List.mem_of_mem_filter canonicalMember)
                exact HashMap.mem_of_lookup storedFound
              · rw [isNew, own]
              · intro allTimely
                rw [isNew]
                refine timely ?_
                rw [sameConfig]
                exact allTimely content candidate canonicalMember
            · exact held stamp old
        · exact held stamp inWhole

/-- Finalizing candidates with distinct contents keeps the events of a ring distinct. -/
theorem RingView.nodup_foldl (key : BaseKey) (now : Nat) (seen : Provider → Bool)
    (coin : String) (entries : List (ContentKey × PendingCandidate)) (state : Benchmark)
    (distinct : (entries.map Prod.fst).Nodup)
    (once : ((stamps (state.windows coin)).map Stamp.origin).Nodup)
    (absent : ∀ entry ∈ entries,
      eventKey key entry.1 ∉ (stamps (state.windows coin)).map Stamp.origin) :
    ((stamps ((entries.foldl (fun state entry =>
      state.finalizeCandidate order (eventKey key entry.1) entry.2 now seen)
        state).windows coin)).map Stamp.origin).Nodup := by
  induction entries generalizing state with
  | nil => exact once
  | cons entry rest ih =>
      obtain ⟨notRest, restDistinct⟩ := List.nodup_cons.mp distinct
      obtain ⟨new, whole, own, _, perm, sub⟩ := view.finalizeCandidate order
        state (eventKey key entry.1) entry.2 now seen coin
      have extended : ((new :: stamps (state.windows coin)).map Stamp.origin).Nodup := by
        rw [List.map_cons, own]
        exact List.nodup_cons.mpr ⟨absent entry List.mem_cons_self, once⟩
      have subset : ∀ origin, origin ∈ (stamps ((state.finalizeCandidate order
          (eventKey key entry.1) entry.2 now seen).windows coin)).map Stamp.origin →
          origin = eventKey key entry.1 ∨ origin ∈ (stamps (state.windows coin)).map
            Stamp.origin := by
        intro origin member
        have inWhole := (sub.map Stamp.origin).subset member
        split at inWhole
        · have moved := (perm.map Stamp.origin).mem_iff.mp inWhole
          rw [List.map_cons, own] at moved
          exact List.mem_cons.mp moved
        · exact Or.inr inWhole
      rw [List.foldl_cons]
      refine ih _ restDistinct ?_ ?_
      · refine List.Nodup.sublist (sub.map Stamp.origin) ?_
        split
        · exact (perm.map Stamp.origin).nodup_iff.mpr extended
        · exact once
      · intro other member present
        rcases subset _ present with same | old
        · refine notRest (List.mem_map.mpr ⟨other, member, ?_⟩)
          exact congrArg EventKey.content same
        · exact absent other (List.mem_cons_of_mem entry member) old

/-- Each entry of a ring is guarded by a tombstone that is no older, and is the only one
of its event. -/
structure Guarded (stamps : CoinWindow → List Stamp) (benchmark : Benchmark) : Prop where
  guard : ∀ coin stamp, stamp ∈ stamps (benchmark.windows coin) →
    ∃ sealedAt, benchmark.settledBases.lookup stamp.origin.base = some sealedAt ∧
      stamp.instant ≤ sealedAt
  once : ∀ coin, ((stamps (benchmark.windows coin)).map Stamp.origin).Nodup

omit view in
theorem canonical_contents_nodup (order : IterationOrder) (config : BenchmarkConfig)
    (pending : PendingBase) : ((canonical order config pending).map Prod.fst).Nodup := by
  have visited : ((admitted order config pending).map Prod.fst).Perm
      pending.candidates.entries.keys := by
    unfold admitted
    rw [List.map_map]
    exact (order.perm pending.candidates.entries).map Sigma.fst
  have distinct := visited.nodup_iff.mpr pending.candidates.nodupKeys
  exact distinct.sublist (List.filter_sublist.map Prod.fst)

theorem Guarded.settle (guarded : Guarded stamps benchmark) (apart : benchmark.Apart)
    (keyed : benchmark.Keyed) {key : BaseKey} {pending : PendingBase} {now : Nat}
    {evicted : Bool} (found : benchmark.pending.lookup key = some pending)
    (timely : Timely benchmark.config order pending now)
    (unevicted : (benchmark.settle order key now evicted).Unevicted) :
    Guarded stamps (benchmark.settle order key now evicted) := by
  have unsealed := apart key (HashMap.mem_of_lookup found)
  obtain ⟨_, sealing⟩ := settle_of_unevicted found unevicted
  constructor
  · intro coin stamp member
    rw [sealing]
    rcases view.mem_settle member with old | ⟨other, otherFound, _, ⟨content, present, own⟩, young⟩
    · obtain ⟨sealedAt, isSealed, le⟩ := guarded.guard coin stamp old
      have different : stamp.origin.base ≠ key := by
        intro same
        rw [same] at isSealed
        exact unsealed (HashMap.mem_of_lookup isSealed)
      exact ⟨sealedAt, HashMap.lookup_insert_eq_some.mpr (Or.inr ⟨different, isSealed⟩), le⟩
    · cases Option.some.inj (found.symm.trans otherFound)
      have sameBase : stamp.origin.base = key := by
        rw [own]
        exact keyed key pending found content present
      rw [sameBase]
      exact ⟨now, AList.lookup_insert _, young timely⟩
  · intro coin
    have windows :=
      sealBase_windows order benchmark key pending now evicted stamps view.evicted coin
    rw [settle_of_lookup order benchmark now evicted found]
    refine view.nodup_foldl key now _ coin _ _
      (canonical_contents_nodup order benchmark.config pending) ?_ ?_
    · rw [windows]
      exact guarded.once coin
    · intro entry member present
      rw [windows] at present
      obtain ⟨stamp, stampMember, same⟩ := List.mem_map.mp present
      obtain ⟨sealedAt, isSealed, _⟩ := guarded.guard coin stamp stampMember
      obtain ⟨stored, storedFound, _⟩ := mem_admitted order (List.mem_of_mem_filter member)
      rw [same, keyed key pending found entry.1 (HashMap.mem_of_lookup storedFound)] at isSealed
      exact unsealed (HashMap.mem_of_lookup isSealed)

/-- A tombstone outlives the entries it guards. -/
theorem Guarded.prune (guarded : Guarded stamps benchmark) (now : Nat) :
    Guarded stamps (benchmark.prune now) := by
  constructor
  · intro coin stamp member
    change stamp ∈ stamps (CoinWindow.prune _ _ _) at member
    rw [view.pruned] at member
    obtain ⟨old, young⟩ := List.mem_filter.mp member
    obtain ⟨sealedAt, isSealed, le⟩ := guarded.guard coin stamp old
    have kept := of_decide_eq_true young
    exact ⟨sealedAt, HashMap.lookup_retain_eq_some.mpr
      ⟨isSealed, decide_eq_true (by omega)⟩, le⟩
  · intro coin
    change ((stamps (CoinWindow.prune _ _ _)).map _).Nodup
    rw [view.pruned]
    exact (guarded.once coin).sublist (List.filter_sublist.map _)

omit view in
/-- A change that keeps the tombstones and what a ring shows keeps it guarded. -/
theorem Guarded.frame {after : Benchmark} (guarded : Guarded stamps benchmark)
    (sameBases : after.settledBases = benchmark.settledBases)
    (sameStamps : ∀ coin, stamps (after.windows coin) = stamps (benchmark.windows coin)) :
    Guarded stamps after := by
  constructor
  · intro coin stamp member
    rw [sameStamps] at member
    rw [sameBases]
    exact guarded.guard coin stamp member
  · intro coin
    rw [sameStamps]
    exact guarded.once coin

/-! ## Every reachable state is orderly -/

/-- The invariant of the sealing discipline, as one ring shows it. -/
structure Orderly (stamps : CoinWindow → List Stamp) (benchmark : Benchmark) : Prop where
  apart : benchmark.Apart
  keyed : benchmark.Keyed
  solo : benchmark.Solo
  guarded : benchmark.Unevicted → Guarded stamps benchmark

theorem Orderly.settle (orderly : Orderly stamps benchmark) {key : BaseKey} {now : Nat}
    {evicted : Bool} (timely : evicted = false → ∀ pending,
      benchmark.pending.lookup key = some pending → Timely benchmark.config order pending now) :
    Orderly stamps (benchmark.settle order key now evicted) := by
  refine ⟨orderly.apart.settle key now evicted, orderly.keyed.settle key now evicted,
    orderly.solo.settle key now evicted, fun unevicted => ?_⟩
  have before := orderly.guarded
    (unevicted.of_le (evictionsLe_settle order benchmark key now evicted))
  cases found : benchmark.pending.lookup key with
  | none =>
      rw [settle_of_lookup_none order benchmark now evicted found]
      exact before
  | some pending =>
      obtain ⟨notEvicted, _⟩ := settle_of_unevicted found unevicted
      exact before.settle view orderly.apart orderly.keyed found
        (timely notEvicted pending found) unevicted

theorem Orderly.settleOverdue (orderly : Orderly stamps benchmark) {key : BaseKey} {now : Nat}
    {evicted : Bool} (overdue : evicted = false → benchmark.Overdue key now) :
    Orderly stamps (benchmark.settle order key now evicted) :=
  orderly.settle view fun notEvicted pending found =>
    timely_of_overdue (overdue notEvicted pending found)

omit view in
/-- The base of a single source holds one arrival, received as it is settled. -/
theorem timely_heldBase (order : IterationOrder) {event : MarketEvent}
    (absent : event.key.base ∉ benchmark.pending) :
    Timely benchmark.config order
      (benchmark.heldBase event (withArrival (benchmark.openedCandidate event) event))
      event.received := by
  intro content candidate member complete
  obtain ⟨arrival, arrived⟩ := PendingCandidate.arrival_of_complete complete
    benchmark.config.referenceProvider_mem
  obtain ⟨latest, last, active, isLast, greatest⟩ := PendingCandidate.exists_latestArrival
    benchmark.config.referenceProvider_mem (Option.isSome_of_eq_some arrived)
  obtain ⟨stored, storedFound, same⟩ := mem_admitted order (List.mem_of_mem_filter member)
  rw [same] at isLast
  obtain ⟨wasStored, _⟩ := arrivals_withoutLate active isLast
  rcases HashMap.lookup_insert_eq_some.mp storedFound with ⟨_, isNew⟩ | ⟨_, before⟩
  · rw [← isNew] at wasStored
    unfold withArrival at wasStored
    dsimp only at wasStored
    rw [Function.update_apply, openedCandidate_of_absent absent] at wasStored
    split at wasStored
    · rw [← greatest, ← Option.some.inj wasStored]
    · cases wasStored
  · rw [openedBase_of_absent absent] at before
    cases before

theorem markIntegrityLoss_stamps (coin other : String) (now : Nat) :
    stamps ((benchmark.markIntegrityLoss coin now).windows other) =
      stamps (benchmark.windows other) := by
  unfold Benchmark.markIntegrityLoss
  rw [updateWindow_windows]
  split
  · exact view.marked _ _
  · rfl

theorem Guarded.store {event : MarketEvent} (guarded : Guarded stamps benchmark)
    (apart : benchmark.Apart) (keyed : benchmark.Keyed) (solo : benchmark.Solo)
    (unsealed : event.key.base ∉ benchmark.settledBases)
    (unevicted : (benchmark.store order event).Unevicted) :
    Guarded stamps (benchmark.store order event) := by
  by_cases single : benchmark.config.providers.length = 1
  · have absent := solo single event.key.base
    rw [store_of_absent absent, if_pos single] at unevicted ⊢
    have opened : Guarded stamps (benchmark.withPending event.key.base
        (benchmark.heldBase event (withArrival (benchmark.openedCandidate event) event))) :=
      guarded.frame rfl fun _ => rfl
    have timely := timely_heldBase order absent
    exact opened.settle view (apart.withPending _ unsealed)
      (keyed.withPending fun _ present => keyed.heldBase event _ present)
      (withPending_lookup benchmark event.key.base _) timely unevicted
  · rw [store_eq]
    split_ifs
    · exact guarded.frame rfl fun coin => markIntegrityLoss_stamps view _ _ _
    · exact guarded.frame rfl fun _ => rfl
    · exact guarded.frame rfl fun _ => rfl

theorem Orderly.store {event : MarketEvent} (orderly : Orderly stamps benchmark)
    (unsealed : event.key.base ∉ benchmark.settledBases) :
    Orderly stamps (benchmark.store order event) := by
  refine ⟨orderly.apart.store unsealed, orderly.keyed.store, orderly.solo.store, ?_⟩
  intro unevicted
  have before := orderly.guarded (unevicted.of_le (evictionsLe_store order benchmark event))
  exact before.store view orderly.apart orderly.keyed orderly.solo unsealed unevicted

theorem Orderly.recordAccepted {event : MarketEvent} (orderly : Orderly stamps benchmark) :
    Orderly stamps (benchmark.recordAccepted order event) := by
  have counted : ∀ (state : Benchmark) coin provider increment, Orderly stamps state →
      Orderly stamps (state.bump coin provider increment) := fun _ _ _ _ held =>
    ⟨held.apart, held.keyed, held.solo, fun unevicted => (held.guarded unevicted).frame rfl
      fun _ => rfl⟩
  refine recordAccepted_induction order benchmark (Orderly stamps) (Orderly stamps)
    (counted benchmark _ _ _ orderly) ?_ ?_ ?_ ?_
  · intro state pending sameConfig found late held
    refine held.settleOverdue view fun _ other otherFound => ?_
    cases Option.some.inj (found.symm.trans otherFound)
    rw [sameConfig]
    exact late
  · intro state oldest _ _ _ _ held
    exact held.settleOverdue view nofun
  · exact fun state _ _ held => counted state _ _ _ held
  · exact fun state _ unsealed _ held => held.store view unsealed

theorem Orderly.step {call : Call} {after : Benchmark} (orderly : Orderly stamps benchmark)
    (stepped : benchmark.step call = some after) : Orderly stamps after := by
  have framed : ∀ {state other : Benchmark}, Orderly stamps state →
      other.config = state.config → other.pending = state.pending →
      other.settledBases = state.settledBases →
      (∀ coin, stamps (other.windows coin) = stamps (state.windows coin)) →
      (other.Unevicted → state.Unevicted) → Orderly stamps other := by
    intro state other held sameConfig samePending sameBases sameStamps sameEvictions
    refine ⟨?_, ?_, ?_, ?_⟩
    · intro base
      rw [samePending, sameBases]
      exact held.apart base
    · intro base
      rw [samePending]
      exact held.keyed base
    · intro single base
      rw [sameConfig] at single
      rw [samePending]
      exact held.solo single base
    · intro unevicted
      exact (held.guarded (sameEvictions unevicted)).frame sameBases sameStamps
  refine step_induction (Orderly stamps) stepped orderly ?_ ?_ ?_ ?_ ?_ ?_ ?_
  · intro coin provider increment _ _
    exact framed orderly rfl rfl rfl (fun _ => rfl) fun unevicted => unevicted
  · intro order event increment _ _ _ _ _
    refine framed orderly rfl rfl rfl (fun coin => markIntegrityLoss_stamps view _ _ _) ?_
    intro unevicted
    exact unevicted.of_le (evictionsLe_markIntegrityLoss (benchmark.bump _ _ _) _ _)
  · exact fun order event _ _ _ => orderly.recordAccepted view
  · intro order state key now _ _ overdue held
    exact held.settleOverdue view fun _ => overdue
  · intro state now _ _ held
    refine ⟨held.apart.prune now, held.keyed, held.solo, fun unevicted => ?_⟩
    exact (held.guarded unevicted).prune view now
  · intro state interval held
    exact framed held rfl rfl rfl (fun _ => rfl) fun unevicted => unevicted
  · intro interval _ _ _
    exact framed orderly rfl rfl rfl (fun coin => view.reported _ _) fun unevicted => unevicted

/-! ## A sealed base rests -/

/--
Between two states nothing happened to a sealed base: it was not opened, its
tombstone was at most dropped, and no entry of it entered the ring.
-/
structure Rests (stamps : CoinWindow → List Stamp) (base : BaseKey)
    (before after : Benchmark) : Prop where
  closed : base ∉ after.pending
  tombstone : ∀ sealedAt, after.settledBases.lookup base = some sealedAt →
    before.settledBases.lookup base = some sealedAt
  entries : ∀ coin stamp, stamp ∈ stamps (after.windows coin) → stamp.origin.base = base →
    stamp ∈ stamps (before.windows coin)

section Rests

variable {base : BaseKey} {before : Benchmark}

omit view in
theorem Rests.refl (closed : base ∉ benchmark.pending) : Rests stamps base benchmark benchmark :=
  ⟨closed, fun _ found => found, fun _ _ member _ => member⟩

omit view in
theorem Rests.trans {after : Benchmark} (earlier : Rests stamps base before benchmark)
    (later : Rests stamps base benchmark after) : Rests stamps base before after :=
  ⟨later.closed, fun sealedAt found => earlier.tombstone sealedAt (later.tombstone sealedAt found),
    fun coin stamp member own =>
      earlier.entries coin stamp (later.entries coin stamp member own) own⟩

omit view in
theorem Rests.frame {after : Benchmark} (rests : Rests stamps base before benchmark)
    (closed : base ∉ after.pending) (sameBases : after.settledBases = benchmark.settledBases)
    (sameStamps : ∀ coin, stamps (after.windows coin) = stamps (benchmark.windows coin)) :
    Rests stamps base before after := by
  refine ⟨closed, ?_, ?_⟩
  · rw [sameBases]
    exact rests.tombstone
  · intro coin stamp member
    rw [sameStamps] at member
    exact rests.entries coin stamp member

/-- Settling other bases lets a base rest. -/
theorem Rests.settle (rests : Rests stamps base before benchmark) (keyed : benchmark.Keyed)
    (key : BaseKey) (now : Nat) (evicted : Bool) :
    Rests stamps base before (benchmark.settle order key now evicted) := by
  refine ⟨?_, ?_, ?_⟩
  · rw [settle_pending]
    exact fun present => rests.closed (AList.mem_erase.mp present).2
  · intro sealedAt found
    cases pendingFound : benchmark.pending.lookup key with
    | none =>
        rw [settle_of_lookup_none order benchmark now evicted pendingFound] at found
        exact rests.tombstone sealedAt found
    | some pending =>
        have different : base ≠ key := by
          intro same
          rw [same] at rests
          exact rests.closed (HashMap.mem_of_lookup pendingFound)
        rw [settle_settledBases order benchmark key now evicted pendingFound] at found
        refine rests.tombstone sealedAt ?_
        rcases insertSettledBase_cases order benchmark key now with same | ⟨_, _, _, same⟩
        · rw [same] at found
          exact ((HashMap.lookup_insert_eq_some.mp found).resolve_left
            fun own => different own.1).2
        · rw [same] at found
          exact (HashMap.lookup_erase_eq_some.mp ((HashMap.lookup_insert_eq_some.mp found)
            |>.resolve_left fun own => different own.1).2).2
  · intro coin stamp member own
    rcases view.mem_settle member with old | ⟨pending, found, _, ⟨content, present, same⟩, _⟩
    · exact rests.entries coin stamp old own
    · have sameBase := keyed key pending found content present
      rw [← same, own] at sameBase
      rw [sameBase] at rests
      exact absurd (HashMap.mem_of_lookup found) rests.closed

theorem Rests.prune (rests : Rests stamps base before benchmark) (now : Nat) :
    Rests stamps base before (benchmark.prune now) := by
  refine ⟨rests.closed, ?_, ?_⟩
  · intro sealedAt found
    exact rests.tombstone sealedAt (HashMap.lookup_retain_eq_some.mp found).1
  · intro coin stamp member
    change stamp ∈ stamps (CoinWindow.prune _ _ _) at member
    rw [view.pruned] at member
    exact rests.entries coin stamp (List.mem_of_mem_filter member)

/-- Storing an event of another base lets a base rest. -/
theorem Rests.store {event : MarketEvent} (rests : Rests stamps base before benchmark)
    (keyed : benchmark.Keyed) (different : base ≠ event.key.base) :
    Rests stamps base before (benchmark.store order event) := by
  have opened : ∀ cohort, base ∉ (benchmark.withPending event.key.base cohort).pending := by
    intro cohort present
    rcases (AList.mem_insert _).mp present with same | old
    · exact different same
    · exact rests.closed old
  rw [store_eq]
  split_ifs
  · exact rests.frame (opened _) rfl fun coin => markIntegrityLoss_stamps view _ _ _
  · exact rests.frame (opened _) rfl fun _ => rfl
  · have held := rests.frame (opened (benchmark.heldBase event
      (withArrival (benchmark.openedCandidate event) event))) rfl fun _ => rfl
    refine held.settle view (keyed.withPending fun _ present => ?_) event.key.base
      event.received false
    exact keyed.heldBase event _ present
  · exact rests.frame (opened _) rfl fun _ => rfl

theorem rests_recordAccepted {event : MarketEvent} (apart : benchmark.Apart)
    (keyed : benchmark.Keyed) (isSealed : base ∈ benchmark.settledBases) :
    Rests stamps base benchmark (benchmark.recordAccepted order event) := by
  refine recordAccepted_induction order benchmark
    (fun state => Rests stamps base benchmark state ∧ state.Keyed ∧
      (event.key.base = base → base ∈ state.settledBases))
    (Rests stamps base benchmark) ?_ ?_ ?_ ?_ ?_
  · have closed : base ∉ benchmark.pending := fun isPending => apart base isPending isSealed
    exact ⟨(Rests.refl closed).frame closed rfl fun _ => rfl, keyed, fun _ => isSealed⟩
  · rintro state pending _ found _ ⟨rests, stateKeyed, _⟩
    refine ⟨rests.settle view stateKeyed _ _ _, stateKeyed.settle _ _ _, fun same => ?_⟩
    rw [same] at found
    exact absurd (HashMap.mem_of_lookup found) rests.closed
  · rintro state oldest _ _ unsealed _ ⟨rests, stateKeyed, stays⟩
    refine ⟨rests.settle view stateKeyed _ _ _, stateKeyed.settle _ _ _, fun same => ?_⟩
    rw [same] at unsealed
    exact absurd (stays same) unsealed
  · rintro state _ _ ⟨rests, _, _⟩
    exact rests.frame rests.closed rfl fun _ => rfl
  · rintro state _ unsealed _ ⟨rests, stateKeyed, stays⟩
    refine rests.store view stateKeyed fun same => ?_
    rw [← same] at unsealed stays
    exact unsealed (stays rfl)

/-- While its tombstone stands, no call settles or reopens a base. -/
theorem rests_step {call : Call} {after : Benchmark} (apart : benchmark.Apart)
    (keyed : benchmark.Keyed) (isSealed : base ∈ benchmark.settledBases)
    (stepped : benchmark.step call = some after) : Rests stamps base benchmark after := by
  have closed : base ∉ benchmark.pending := fun isPending => apart base isPending isSealed
  have still : Rests stamps base benchmark benchmark := Rests.refl closed
  have both : Rests stamps base benchmark after ∧ after.Keyed := by
    refine step_induction (fun state => Rests stamps base benchmark state ∧ state.Keyed)
      stepped ⟨still, keyed⟩ ?_ ?_ ?_ ?_ ?_ ?_ ?_
    · exact fun _ _ _ _ _ => ⟨still.frame closed rfl fun _ => rfl, keyed⟩
    · exact fun _ _ _ _ _ _ _ _ =>
        ⟨still.frame closed rfl fun coin => markIntegrityLoss_stamps view _ _ _, keyed⟩
    · intro order event _ _ _
      exact ⟨rests_recordAccepted view apart keyed isSealed, keyed.recordAccepted⟩
    · exact fun _ _ key now _ _ _ held =>
        ⟨held.1.settle view held.2 key now false, held.2.settle key now false⟩
    · exact fun _ now _ _ held => ⟨held.1.prune view now, held.2⟩
    · exact fun _ _ held => ⟨held.1.frame held.1.closed rfl fun _ => rfl, held.2⟩
    · exact fun _ _ _ _ =>
        ⟨still.frame closed rfl fun coin => view.reported _ _, keyed⟩
  exact both.1

end Rests

end View

/-! ## A young tombstone stands -/

/-- The base carries this tombstone, as far as nothing was evicted. -/
def Stands (base : BaseKey) (sealedAt : Nat) (benchmark : Benchmark) : Prop :=
  benchmark.Unevicted →
    base ∉ benchmark.pending ∧ benchmark.settledBases.lookup base = some sealedAt

section Stands

variable {base : BaseKey} {sealedAt : Nat}

theorem Stands.settle (stands : benchmark.Stands base sealedAt) (key : BaseKey) (now : Nat)
    (evicted : Bool) : (benchmark.settle order key now evicted).Stands base sealedAt := by
  intro unevicted
  obtain ⟨closed, isSealed⟩ :=
    stands (unevicted.of_le (evictionsLe_settle order benchmark key now evicted))
  refine ⟨?_, ?_⟩
  · rw [settle_pending]
    exact fun present => closed (AList.mem_erase.mp present).2
  · cases found : benchmark.pending.lookup key with
    | none =>
        rw [settle_of_lookup_none order benchmark now evicted found]
        exact isSealed
    | some pending =>
        have different : base ≠ key := by
          intro same
          rw [same] at closed
          exact closed (HashMap.mem_of_lookup found)
        rw [(settle_of_unevicted found unevicted).2, AList.lookup_insert_ne different]
        exact isSealed

theorem Stands.withPending (stands : benchmark.Stands base sealedAt) {other : BaseKey}
    (different : benchmark.Unevicted → base ≠ other) (cohort : PendingBase) :
    (benchmark.withPending other cohort).Stands base sealedAt := by
  intro unevicted
  obtain ⟨closed, isSealed⟩ := stands unevicted
  refine ⟨fun present => ?_, isSealed⟩
  rcases (AList.mem_insert _).mp present with same | old
  · exact different unevicted same
  · exact closed old

theorem Stands.store {event : MarketEvent} (stands : benchmark.Stands base sealedAt)
    (unsealed : event.key.base ∉ benchmark.settledBases) :
    (benchmark.store order event).Stands base sealedAt := by
  have different : benchmark.Unevicted → base ≠ event.key.base := by
    intro unevicted same
    rw [← same] at unsealed
    exact unsealed (HashMap.mem_of_lookup (stands unevicted).2)
  rw [store_eq]
  split_ifs
  · intro unevicted
    exact stands.withPending different (benchmark.openedBase event)
      (unevicted.of_le (evictionsLe_markIntegrityLoss
        ((benchmark.withPending event.key.base (benchmark.openedBase event)).bump
          event.key.coin event.provider { signatureOverflow := 1 })
        event.key.coin event.received))
  · exact fun unevicted => stands.withPending different _ unevicted
  · exact (stands.withPending different _).settle event.key.base event.received false
  · exact stands.withPending different _

/-- Until a tick finds it too old, a tombstone stands. -/
theorem Stands.step {call : Call} {after : Benchmark} (stands : benchmark.Stands base sealedAt)
    (young : ∀ now, call.pruneTime = some now →
      now - sealedAt ≤ benchmark.config.rollingWindow)
    (stepped : benchmark.step call = some after) : after.Stands base sealedAt := by
  refine step_induction (fun state => state.Stands base sealedAt) stepped stands
    ?_ ?_ ?_ ?_ ?_ ?_ ?_
  · exact fun _ _ _ _ _ => stands
  · intro order event increment _ _ _ _ _ unevicted
    exact stands (unevicted.of_le (evictionsLe_markIntegrityLoss (benchmark.bump _ _ _) _ _))
  · intro order event _ _ _
    refine recordAccepted_induction order benchmark (fun state => state.Stands base sealedAt)
      (fun state => state.Stands base sealedAt) stands ?_ ?_ ?_ ?_
    · exact fun _ _ _ _ _ held => held.settle event.key.base event.received false
    · exact fun _ oldest _ _ _ _ held => held.settle oldest event.received true
    · exact fun _ _ _ held => held
    · exact fun _ _ unsealed _ held => held.store unsealed
  · exact fun _ _ key now _ _ _ held => held.settle key now false
  · intro state now atTime sameConfig held unevicted
    obtain ⟨closed, isSealed⟩ := held unevicted
    refine ⟨closed, HashMap.lookup_retain_eq_some.mpr ⟨isSealed, ?_⟩⟩
    rw [sameConfig]
    exact decide_eq_true (young now atTime)
  · exact fun _ _ held => held
  · exact fun _ _ _ _ => stands

end Stands

/-! ## Runs -/

section Runs

variable {config : BenchmarkConfig} {startedAt startedWallMs : Nat} {calls : List Call}
  {final : Benchmark} {stamps : CoinWindow → List Stamp}

theorem Orderly.new (view : ∀ coin, stamps ((Benchmark.new config startedAt startedWallMs).windows
    coin) = []) : Orderly stamps (Benchmark.new config startedAt startedWallMs) := by
  refine ⟨Apart.new config startedAt startedWallMs, ?_, ?_, fun _ => ⟨?_, ?_⟩⟩
  · intro base pending found
    cases found
  · exact fun _ base present => AList.notMem_empty base present
  · intro coin stamp member
    rw [view] at member
    cases member
  · intro coin
    rw [view]
    exact List.nodup_nil

theorem Orderly.run (view : RingView stamps)
    (empty : ∀ coin, stamps ((Benchmark.new config startedAt startedWallMs).windows coin) = [])
    (executed : run Benchmark.step (Benchmark.new config startedAt startedWallMs) calls =
      some final) : Orderly stamps final :=
  run_preserves (Orderly stamps) (fun _ _ _ held stepped => held.step view stepped)
    (Orderly.new empty) executed

/-- Over a run in which no tick is late for its tombstone, a sealed base rests. -/
theorem rests_run (view : RingView stamps) {middle : Benchmark} {second : List Call}
    (orderly : Orderly stamps middle)
    (executed : Foundation.Runs.run step middle second = some final)
    (unevicted : final.Unevicted) {base : BaseKey} {sealedAt : Nat}
    (isSealed : middle.settledBases.lookup base = some sealedAt)
    (young : ∀ call ∈ second, ∀ now, call.pruneTime = some now →
      now - sealedAt ≤ middle.config.rollingWindow) :
    Rests stamps base middle final ∧ final.settledBases.lookup base = some sealedAt := by
  have closed : ∀ {state : Benchmark}, Orderly stamps state →
      state.settledBases.lookup base = some sealedAt → base ∉ state.pending :=
    fun held found isPending => held.apart base isPending (HashMap.mem_of_lookup found)
  induction second generalizing middle with
  | nil =>
      cases executed
      exact ⟨Rests.refl (closed orderly isSealed), isSealed⟩
  | cons call rest ih =>
      rw [run_cons] at executed
      obtain ⟨next, stepped, executed⟩ := Option.bind_eq_some_iff.mp executed
      have nextUnevicted := unevicted.of_le (evictionsLe_run executed)
      have stands : middle.Stands base sealedAt := fun _ => ⟨closed orderly isSealed, isSealed⟩
      have nextStands := stands.step (young call List.mem_cons_self) stepped
      have nextSealed := (nextStands nextUnevicted).2
      obtain ⟨rests, finalSealed⟩ := ih (orderly.step view stepped) executed nextSealed (by
        rw [step_config middle stepped]
        exact fun other member => young other (List.mem_cons_of_mem call member))
      have first : Rests stamps base middle next := rests_step view orderly.apart orderly.keyed
        (HashMap.mem_of_lookup isSealed) stepped
      exact ⟨first.trans rests, finalSealed⟩

/--
A sealed base cannot reopen.  In a run without evictions no base is pending and
sealed, no ring holds two entries of one event, no call touches a base while its
tombstone stands, and until a tick finds a sample too old for the rolling window
nothing of its base enters a ring after it, whatever arrives.
-/
theorem sealed_bases_rest
    (executed : Foundation.Runs.run step (Benchmark.new config startedAt startedWallMs) calls =
      some final)
    (unevicted : ∀ coin, (final.windows coin).stateEvictions = 0) :
    (∀ base ∈ final.pending, base ∉ final.settledBases) ∧
    (∀ coin, ((final.windows coin).cohorts.map CommittedCohort.origin).Nodup ∧
      ((final.windows coin).coverage.map CoverageCohort.origin).Nodup) ∧
    (∀ first call second before after, calls = first ++ call :: second →
      Foundation.Runs.run step (Benchmark.new config startedAt startedWallMs) first =
        some before → before.step call = some after →
      ∀ base ∈ before.settledBases, Rests CoinWindow.cohortStamps base before after ∧
        Rests CoinWindow.coverageStamps base before after) ∧
    (∀ first second middle, calls = first ++ second →
      Foundation.Runs.run step (Benchmark.new config startedAt startedWallMs) first =
        some middle → ∀ coin, ∀ sample ∈ (middle.windows coin).cohortStamps ++
          (middle.windows coin).coverageStamps,
      (∀ call ∈ second, ∀ now, call.pruneTime = some now →
        now - sample.instant ≤ config.rollingWindow) →
      sample.origin.base ∈ final.settledBases ∧
        Rests CoinWindow.cohortStamps sample.origin.base middle final ∧
        Rests CoinWindow.coverageStamps sample.origin.base middle final) := by
  have cohortsOrderly : ∀ {calls : List Call} {state : Benchmark},
      Foundation.Runs.run step (Benchmark.new config startedAt startedWallMs) calls =
        some state → Orderly CoinWindow.cohortStamps state :=
    fun reached => Orderly.run cohortStamps_view (fun _ => rfl) reached
  have coverageOrderly : ∀ {calls : List Call} {state : Benchmark},
      Foundation.Runs.run step (Benchmark.new config startedAt startedWallMs) calls =
        some state → Orderly CoinWindow.coverageStamps state :=
    fun reached => Orderly.run coverageStamps_view (fun _ => rfl) reached
  refine ⟨(cohortsOrderly executed).apart, fun coin => ⟨?_, ?_⟩, ?_, ?_⟩
  · have once := ((cohortsOrderly executed).guarded unevicted).once coin
    unfold CoinWindow.cohortStamps at once
    rw [List.map_map] at once
    exact once
  · have once := ((coverageOrderly executed).guarded unevicted).once coin
    unfold CoinWindow.coverageStamps at once
    rw [List.map_map] at once
    exact once
  · intro first call second before after _ reached stepped base isSealed
    have orderly := cohortsOrderly reached
    exact ⟨rests_step cohortStamps_view orderly.apart orderly.keyed isSealed stepped,
      rests_step coverageStamps_view orderly.apart orderly.keyed isSealed stepped⟩
  · intro first second middle split reached coin sample member young
    rw [split] at executed
    obtain ⟨state, sameReached, rest⟩ := run_append_eq_some executed
    cases Option.some.inj (reached.symm.trans sameReached)
    have middleUnevicted := Unevicted.of_le unevicted (evictionsLe_run rest)
    have guarded : ∃ sealedAt, middle.settledBases.lookup sample.origin.base = some sealedAt ∧
        sample.instant ≤ sealedAt := by
      rcases List.mem_append.mp member with inCohorts | inCoverage
      · exact ((cohortsOrderly reached).guarded middleUnevicted).guard coin sample inCohorts
      · exact ((coverageOrderly reached).guarded middleUnevicted).guard coin sample inCoverage
    obtain ⟨sealedAt, isSealed, le⟩ := guarded
    have youngSeal : ∀ call ∈ second, ∀ now, call.pruneTime = some now →
        now - sealedAt ≤ middle.config.rollingWindow := by
      intro call callMember now atTime
      have sampleYoung := young call callMember now atTime
      have sameConfig : middle.config = config := run_config reached
      rw [sameConfig]
      omega
    obtain ⟨cohortsRest, finalSealed⟩ :=
      rests_run cohortStamps_view (cohortsOrderly reached) rest unevicted isSealed youngSeal
    obtain ⟨coverageRests, _⟩ :=
      rests_run coverageStamps_view (coverageOrderly reached) rest unevicted isSealed youngSeal
    exact ⟨HashMap.mem_of_lookup finalSealed, cohortsRest, coverageRests⟩

/-- The late revision of the sample run finds its base sealed. -/
theorem sealed_bases_rest_bookCalls :
    ∃ final, Foundation.Runs.run step (Benchmark.new bookProcess 0 0) bookCalls = some final ∧
      (final.windows "BTC").cohorts.length = 1 ∧
      ((final.windows "BTC").cohorts.map CommittedCohort.origin).Nodup ∧
      ∀ base ∈ final.pending, base ∉ final.settledBases := by
  have sampled : (Foundation.Runs.run step (Benchmark.new bookProcess 0 0) bookCalls).map
      (fun final => ((final.windows "BTC").stateEvictions,
        (final.windows "BTC").cohorts.length)) = some (0, 1) := by decide
  obtain ⟨final, executed, counts⟩ := Option.map_eq_some_iff.mp sampled
  have unevicted : ∀ coin, (final.windows coin).stateEvictions = 0 := by
    intro coin
    by_cases own : coin ∈ bookProcess.coins
    · rw [List.mem_singleton.mp own]
      exact congrArg Prod.fst counts
    · have sameConfig : final.config = bookProcess := run_config executed
      rw [(registered_run executed).windows coin (by rw [sameConfig]; exact own)]
  obtain ⟨apart, once, _⟩ := sealed_bases_rest executed unevicted
  exact ⟨final, executed, congrArg Prod.snd counts, (once "BTC").1, apart⟩

end Runs

end Benchmark

end MarketBenchmark
