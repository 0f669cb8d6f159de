import MarketBenchmark.Peering.Arrivals
import MarketBenchmark.Foundation.FirstWrites

/-!
# The block-ready boundary

A block is ready with the last of its required arrivals: its first ordering
record and the first record of each bundle that its reference line lists, each
since it was last absent from its table.  A round has at most one event for
each reference line of it, so pruning and tracking it again adds none.
-/

namespace MarketBenchmark

open Foundation.HashMaps Foundation.Runs Foundation.FirstWrites

namespace Assembly

/-! ## Slots of the tables -/

/-- The ordering record in the entry of a round. -/
def orderingSlot (round : Nat) (assembly : Assembly) : Option (Option (Nat × Nat)) :=
  (assembly.rounds.lookup round).map TrackedRound.ordering

/-- What a call offers as the ordering record of a round. -/
def orderingWrites (round : Nat) (assembly : Assembly) : AssemblyCall → Option (Nat × Nat)
  | .trackOrdering other arrival wallMs =>
      if other = round ∧ assembly.Plausible round then some (arrival, wallMs) else none
  | _ => none

/-- The arrival in the entry of a bundle. -/
def bundleSlot (sig : Hash32) (assembly : Assembly) : Option (Option (Nat × Nat)) :=
  (bundleArrival assembly.bundles sig).map some

/-- What a call offers as the arrival of a bundle. -/
def bundleWrites (sig : Hash32) (_ : Assembly) : AssemblyCall → Option (Nat × Nat)
  | .trackBundle other arrival wallMs _ => if other = sig then some (arrival, wallMs) else none
  | _ => none

variable {parseReferenceTimeMs : String → Option Nat} {assembly : Assembly}

theorem orderingWrites_eq_some {round : Nat} {call : AssemblyCall} {ordering : Nat × Nat} :
    orderingWrites round assembly call = some ordering ↔
      call = .trackOrdering round ordering.1 ordering.2 ∧ assembly.Plausible round := by
  cases call with
  | trackOrdering other arrival wallMs =>
      unfold orderingWrites
      rw [Option.ite_none_right_eq_some]
      constructor
      · rintro ⟨⟨rfl, isPlausible⟩, ⟨⟩⟩
        exact ⟨rfl, isPlausible⟩
      · rintro ⟨⟨⟩, isPlausible⟩
        exact ⟨⟨rfl, isPlausible⟩, rfl⟩
  | _ => exact iff_of_false nofun fun both => nomatch both.1

theorem bundleWrites_eq_some {sig : Hash32} {call : AssemblyCall} {arrival : Nat × Nat} :
    bundleWrites sig assembly call = some arrival ↔
      ∃ now, call = .trackBundle sig arrival.1 arrival.2 now := by
  cases call with
  | trackBundle other arrived wallMs now =>
      unfold bundleWrites
      rw [Option.ite_none_right_eq_some]
      constructor
      · rintro ⟨rfl, ⟨⟩⟩
        exact ⟨now, rfl⟩
      · rintro ⟨_, ⟨⟩⟩
        exact ⟨rfl, rfl⟩
  | _ => exact iff_of_false nofun fun ⟨_, impossible⟩ => nomatch impossible

theorem entry_of_lookup {round : Nat} {tracked : TrackedRound}
    (found : assembly.rounds.lookup round = some tracked) : assembly.entry round = tracked := by
  unfold entry
  rw [found]
  rfl

theorem report_ordering (decided : Fate) (tracked : TrackedRound) :
    (report decided tracked).ordering = tracked.ordering := by
  unfold report
  split <;> rfl

/-- The first ordering record of a round stays until the round is dropped. -/
theorem ordering_writeOnce (round : Nat) :
    WriteOnce (step parseReferenceTimeMs) (orderingSlot round) (orderingWrites round) := by
  constructor
  · rintro before _ call ordering ⟨⟩ filled
    obtain ⟨tracked, found, isOrdering⟩ := Option.map_eq_some_iff.mp filled
    have sameEntry := entry_of_lookup found
    have after := before.roundAfter parseReferenceTimeMs call round
    unfold orderingSlot
    generalize (before.next parseReferenceTimeMs call).rounds.lookup round = entry at after ⊢
    cases after with
    | same _ => exact Or.inr filled
    | gone => exact Or.inl rfl
    | ordered arrival wallMs _ _ =>
        refine Or.inr ?_
        rw [sameEntry, Option.map_some, isOrdering]
        rfl
    | named line now reference _ _ _ _ =>
        refine Or.inr ?_
        rw [sameEntry, Option.map_some, isOrdering]
    | drained order now other _ isOther =>
        cases Option.some.inj (found.symm.trans isOther)
        refine Or.inr ?_
        rw [Option.map_some, report_ordering, isOrdering]
  · rintro before _ call ⟨⟩ empty
    have noOrdering : (before.entry round).ordering = none := by
      cases found : before.rounds.lookup round with
      | none =>
          unfold Assembly.entry
          rw [found]
          rfl
      | some tracked =>
          unfold orderingSlot at empty
          rw [found] at empty
          rw [entry_of_lookup found]
          exact empty
    have after := before.roundAfter parseReferenceTimeMs call round
    unfold orderingSlot at empty ⊢
    generalize (before.next parseReferenceTimeMs call).rounds.lookup round = entry at after ⊢
    cases after with
    | same apart =>
        have quiet : orderingWrites round before call = none := by
          refine Option.eq_none_iff_forall_ne_some.mpr fun ordering wrote => ?_
          obtain ⟨isCall, isPlausible⟩ := orderingWrites_eq_some.mp wrote
          exact apart _ _ isCall isPlausible
        rw [quiet]
        cases held : (before.rounds.lookup round).map TrackedRound.ordering with
        | none => exact Or.inl rfl
        | some ordering =>
            rw [held] at empty
            exact Or.inr (congrArg some empty)
    | gone => exact Or.inl rfl
    | ordered arrival wallMs isCall isPlausible =>
        have wrote : orderingWrites round before call = some (arrival, wallMs) :=
          orderingWrites_eq_some.mpr ⟨isCall, isPlausible⟩
        refine Or.inr ?_
        rw [Option.map_some, noOrdering, Option.getD_none, wrote]
    | named line now reference isCall own accepted scored =>
        subst isCall
        refine Or.inr ?_
        rw [Option.map_some, noOrdering]
        rfl
    | drained order now tracked isCall found =>
        subst isCall
        refine Or.inr ?_
        rw [entry_of_lookup found] at noOrdering
        rw [Option.map_some, report_ordering, noOrdering]
        rfl

/-- The first record of a bundle stays until the bundle is dropped. -/
theorem bundle_writeOnce (sig : Hash32) :
    WriteOnce (step parseReferenceTimeMs) (bundleSlot sig) (bundleWrites sig) := by
  constructor
  · rintro before _ call arrival ⟨⟩ filled
    obtain ⟨arrived, isArrived, same⟩ := Option.map_eq_some_iff.mp filled
    obtain ⟨bundle, found, isArrival⟩ := Option.map_eq_some_iff.mp isArrived
    have after := before.bundleAfter parseReferenceTimeMs call sig
    unfold bundleSlot bundleArrival
    generalize (before.next parseReferenceTimeMs call).bundles.lookup sig = entry at after ⊢
    cases after with
    | same _ => exact Or.inr filled
    | gone => exact Or.inl rfl
    | recorded arrival wallMs now _ absent => cases absent.symm.trans found
  · rintro before _ call ⟨⟩ empty
    have absent : before.bundles.lookup sig = none := by
      cases found : before.bundles.lookup sig with
      | none => rfl
      | some bundle =>
          unfold bundleSlot bundleArrival at empty
          rw [found] at empty
          cases empty
    have after := before.bundleAfter parseReferenceTimeMs call sig
    unfold bundleSlot bundleArrival
    generalize (before.next parseReferenceTimeMs call).bundles.lookup sig = entry at after ⊢
    cases after with
    | same _ =>
        rw [absent]
        exact Or.inl rfl
    | gone => exact Or.inl rfl
    | recorded arrival wallMs now isCall _ =>
        have wrote : bundleWrites sig before call = some (arrival, wallMs) :=
          bundleWrites_eq_some.mpr ⟨now, isCall⟩
        exact Or.inr (congrArg some wrote.symm)

/-! ## References -/

/-- A call of the run tracks a line of the round that says the reference and is scored. -/
def Accepted (parseReferenceTimeMs : String → Option Nat) (scoreFromMs : Nat)
    (calls : List AssemblyCall) (round : Nat) (reference : ReferenceRound) : Prop :=
  ∃ line now, .trackReference line now ∈ calls ∧ line.r = round ∧
    referenceRound parseReferenceTimeMs line = some reference ∧ scoreFromMs ≤ reference.timeMs

theorem Accepted.mono {scoreFromMs round : Nat} {calls more : List AssemblyCall}
    {reference : ReferenceRound}
    (accepted : Accepted parseReferenceTimeMs scoreFromMs calls round reference) :
    Accepted parseReferenceTimeMs scoreFromMs (calls ++ more) round reference := by
  obtain ⟨line, now, member, rest⟩ := accepted
  exact ⟨line, now, List.mem_append_left more member, rest⟩

theorem report_reference (decided : Fate) (tracked : TrackedRound) :
    (report decided tracked).reference = tracked.reference := by
  unfold report
  split <;> rfl

/-- The reference of a tracked round comes from an accepted line. -/
theorem accepted_of_run {origin final : Assembly} {calls : List AssemblyCall}
    (fresh : ∀ round, origin.rounds.lookup round = none)
    (executed : run (step parseReferenceTimeMs) origin calls = some final) {round : Nat}
    {tracked : TrackedRound} {reference : ReferenceRound}
    (found : final.rounds.lookup round = some tracked)
    (isReference : tracked.reference = some reference) :
    Accepted parseReferenceTimeMs origin.scoreFromMs calls round reference := by
  refine run_induction (fun calls (final : Assembly) => ∀ tracked,
    final.rounds.lookup round = some tracked → tracked.reference = some reference →
      Accepted parseReferenceTimeMs origin.scoreFromMs calls round reference) ?_ ?_ executed
    tracked found isReference
  · intro tracked found
    cases (fresh round).symm.trans found
  · rintro calls before call _ reached held ⟨⟩
    have known : (before.entry round).reference = some reference →
        Accepted parseReferenceTimeMs origin.scoreFromMs calls round reference := by
      intro isReference
      cases present : before.rounds.lookup round with
      | none =>
          unfold Assembly.entry at isReference
          rw [present] at isReference
          cases isReference
      | some tracked =>
          rw [entry_of_lookup present] at isReference
          exact held tracked present isReference
    have after := before.roundAfter parseReferenceTimeMs call round
    generalize (before.next parseReferenceTimeMs call).rounds.lookup round = entry at after ⊢
    cases after with
    | same _ => exact fun tracked present isReference => (held tracked present isReference).mono
    | gone => exact nofun
    | ordered arrival wallMs _ _ =>
        rintro _ ⟨⟩ isReference
        exact (known isReference).mono
    | named line now accepted isCall own reads scored =>
        rintro _ ⟨⟩ isReference
        cases isReference
        rw [scoreFromMs_run reached] at scored
        exact ⟨line, now, List.mem_append_right calls (isCall ▸ List.mem_cons_self), own, reads,
          scored⟩
    | drained order now tracked _ present =>
        rintro _ ⟨⟩ isReference
        rw [report_reference] at isReference
        exact (held tracked present isReference).mono

/-! ## One event for a line -/

/-- The entry has a reference and is not decided. -/
def entryPending (tracked : TrackedRound) : Bool :=
  tracked.reference.isSome && !tracked.reportedGap

/-- The round has a reference and is not decided. -/
def pending (assembly : Assembly) (round : Nat) : Bool :=
  (assembly.rounds.lookup round).any entryPending

/-- The lines of a round in the calls. -/
def linesOf (round : Nat) (calls : List AssemblyCall) : Nat :=
  (calls.filterMap AssemblyCall.reference).countP fun line => decide (line.r = round)

theorem pending_of_isReady {now : Nat} {tracked : TrackedRound}
    (ready : (assembly.fate now tracked).isReady = true) :
    entryPending tracked = true ∧
      entryPending (report (assembly.fate now tracked) tracked) = false := by
  cases decided : assembly.fate now tracked with
  | ready receivedAt wall timeMs =>
      obtain ⟨undecided, _, reference, _, isReference, _⟩ := fate_eq_ready.mp decided
      constructor
      · unfold entryPending
        rw [isReference, undecided]
        rfl
      · unfold entryPending report
        rw [if_neg nofun, Bool.not_true, Bool.and_false]
  | _ =>
      rw [decided] at ready
      cases ready

theorem pending_report (decided : Fate) (tracked : TrackedRound) :
    entryPending (report decided tracked) = true →
      entryPending tracked = true := by
  unfold report
  split
  · exact id
  · unfold entryPending
    rw [Bool.not_true, Bool.and_false]
    exact nofun

/-- A drain that returns a round closes it. -/
theorem eventsOf_drain (assembly : Assembly) (order : IterationOrder) (now round : Nat) :
    eventsOf round (assembly.emitted (.drainReady order now)) +
        ((assembly.drainReady order now).1.pending round).toNat ≤
      (assembly.pending round).toNat := by
  have returned : eventsOf round (assembly.emitted (.drainReady order now)) =
      if (assembly.rounds.lookup round).any fun tracked => (assembly.fate now tracked).isReady
      then 1 else 0 := countP_ready order assembly round now
  rw [returned]
  unfold pending
  rw [rounds_drainReady, HashMap.lookup_retain, HashMap.lookup_mapValues]
  cases assembly.rounds.lookup round with
  | none => exact Nat.le_refl 0
  | some tracked =>
      have after : Option.any entryPending
          ((some (report (assembly.fate now tracked) tracked)).filter
            fun _ => decide (assembly.maxRefRound - roundRetain ≤ round)) = true →
          entryPending (report (assembly.fate now tracked) tracked) = true := by
        intro still
        rw [Option.any_eq_true] at still
        obtain ⟨kept, isKept, isPending⟩ := still
        cases (Option.filter_eq_some_iff.mp isKept).1
        exact isPending
      rw [Option.map_some, Option.any_some, Option.any_some]
      cases ready : (assembly.fate now tracked).isReady with
      | true =>
          obtain ⟨isPending, closed⟩ := pending_of_isReady ready
          rw [closed] at after
          rw [isPending, Bool.eq_false_iff.mpr fun still => nomatch after still]
          exact Nat.le_refl 1
      | false =>
          have kept := fun still => pending_report _ tracked (after still)
          rw [if_neg nofun, Nat.zero_add]
          exact Bool.toNat_le_toNat kept

theorem pending_entry (assembly : Assembly) (round : Nat) :
    entryPending (assembly.entry round) = assembly.pending round := by
  unfold entry pending
  cases assembly.rounds.lookup round <;> rfl

/-- Only a line of the round can open it. -/
theorem pending_next (assembly : Assembly) (call : AssemblyCall) (round : Nat) :
    ((assembly.next parseReferenceTimeMs call).pending round).toNat ≤
      (assembly.pending round).toNat + linesOf round [call] := by
  have after := assembly.roundAfter parseReferenceTimeMs call round
  unfold pending
  generalize (assembly.next parseReferenceTimeMs call).rounds.lookup round = entry at after ⊢
  cases after with
  | same _ => exact Nat.le_add_right _ _
  | gone => exact Nat.zero_le _
  | ordered arrival wallMs _ _ =>
      rw [← pending, ← pending_entry]
      exact Nat.le_add_right _ _
  | named line now reference isCall own _ _ =>
      have one : linesOf round [call] = 1 := by
        subst isCall own
        exact List.countP_cons_of_pos (decide_eq_true rfl)
      rw [one]
      exact (Bool.toNat_le _).trans (Nat.le_add_left 1 _)
  | drained order now tracked _ found =>
      rw [found]
      exact (Bool.toNat_le_toNat (pending_report _ tracked)).trans (Nat.le_add_right _ _)

variable (parseReferenceTimeMs) in
/-- A call that returns the round closes it, and only a line of the round can open it. -/
theorem eventsOf_next (assembly : Assembly) (call : AssemblyCall) (round : Nat) :
    eventsOf round (assembly.emitted call) +
        ((assembly.next parseReferenceTimeMs call).pending round).toNat ≤
      (assembly.pending round).toNat + linesOf round [call] := by
  cases call with
  | drainReady order now => exact eventsOf_drain assembly order now round
  | trackOrdering other arrival wallMs =>
      have none : eventsOf round (assembly.emitted (.trackOrdering other arrival wallMs)) = 0 := rfl
      rw [none, Nat.zero_add]
      exact pending_next assembly _ round
  | trackBundle sigR arrival wallMs now =>
      have none : eventsOf round (assembly.emitted (.trackBundle sigR arrival wallMs now)) = 0 :=
        rfl
      rw [none, Nat.zero_add]
      exact pending_next assembly _ round
  | trackReference line now =>
      have none : eventsOf round (assembly.emitted (.trackReference line now)) = 0 := rfl
      rw [none, Nat.zero_add]
      exact pending_next assembly _ round

theorem sum_linesOf (round : Nat) (calls : List AssemblyCall) :
    (calls.map fun call => linesOf round [call]).sum = linesOf round calls :=
  sum_countP_filterMap _ _ calls

/-- A run returns a round at most once for each line of it. -/
theorem eventsOf_run {origin final : Assembly} {calls : List AssemblyCall} (round : Nat)
    (fresh : origin.rounds.lookup round = none)
    (executed : run (step parseReferenceTimeMs) origin calls = some final) :
    eventsOf round (emissions (step parseReferenceTimeMs) emitted origin calls) ≤
      linesOf round calls := by
  have budget := countP_emissions_le emitted
    (fun event => decide (event.key.content = .peering round))
    (fun state => (state.pending round).toNat) (fun call => linesOf round [call])
    (fun before call _ stepped => by
      cases stepped
      exact before.eventsOf_next parseReferenceTimeMs call round) executed
  have nothing : (origin.pending round).toNat = 0 := by
    unfold pending
    rw [fresh]
    rfl
  rw [sum_linesOf, nothing, Nat.zero_add] at budget
  exact Nat.le_of_add_right_le budget

/-! ## Block-ready -/

/-- What the calls before a drain say about an event of it. -/
structure ReadyBlock (parseReferenceTimeMs : String → Option Nat) (origin : Assembly)
    (calls : List AssemblyCall) (event : MarketEvent) (round : Nat) (reference : ReferenceRound)
    (ordering : Nat × Nat) (arrivals : Hash32 → Nat × Nat) : Prop where
  key : event.key = { coin := origin.coin, eventMs := reference.timeMs, content := .peering round }
  provider : event.provider = origin.provider
  accepted : Accepted parseReferenceTimeMs origin.scoreFromMs calls round reference
  ordered : ∃ call, FirstWrite (step parseReferenceTimeMs) (orderingSlot round)
    (orderingWrites round) origin calls call ordering
  bundled : ∀ sig ∈ reference.bundleSigs, ∃ call, FirstWrite (step parseReferenceTimeMs)
    (bundleSlot sig) (bundleWrites sig) origin calls call (arrivals sig)
  after_ordering : ordering.1 ≤ event.received
  after_bundles : ∀ sig ∈ reference.bundleSigs, (arrivals sig).1 ≤ event.received
  attained : (event.received, event.receivedWallMs) = ordering ∨
    ∃ sig ∈ reference.bundleSigs, (event.received, event.receivedWallMs) = arrivals sig

variable (parseReferenceTimeMs) in
theorem source_next (assembly : Assembly) (call : AssemblyCall) :
    (assembly.next parseReferenceTimeMs call).coin = assembly.coin ∧
      (assembly.next parseReferenceTimeMs call).provider = assembly.provider := by
  cases call with
  | trackOrdering other arrival wallMs =>
      unfold Assembly.next trackOrdering
      dsimp only
      split <;> exact ⟨rfl, rfl⟩
  | trackBundle sigR arrival wallMs now =>
      unfold Assembly.next trackBundle
      dsimp only
      split <;> exact ⟨rfl, rfl⟩
  | trackReference line now =>
      unfold Assembly.next trackReference
      dsimp only
      split
      · exact ⟨rfl, rfl⟩
      · split <;> exact ⟨rfl, rfl⟩
  | drainReady order now => exact ⟨rfl, rfl⟩

theorem source_run {origin final : Assembly} {calls : List AssemblyCall}
    (executed : run (step parseReferenceTimeMs) origin calls = some final) :
    final.coin = origin.coin ∧ final.provider = origin.provider :=
  run_preserves
    (fun state : Assembly => state.coin = origin.coin ∧ state.provider = origin.provider)
    (fun before call after same stepped => by
      cases stepped
      obtain ⟨sameCoin, sameProvider⟩ :=
        before.source_next parseReferenceTimeMs call
      exact ⟨sameCoin.trans same.1, sameProvider.trans same.2⟩) ⟨rfl, rfl⟩ executed

/-- The events of a drain are block-ready. -/
theorem readyBlock_of_emitted {origin before : Assembly} {calls : List AssemblyCall}
    (noRounds : ∀ round, origin.rounds.lookup round = none)
    (noBundles : ∀ sig, origin.bundles.lookup sig = none)
    (reached : run (step parseReferenceTimeMs) origin calls = some before)
    {call : AssemblyCall} {event : MarketEvent} (returned : event ∈ before.emitted call) :
    ∃ round reference ordering arrivals,
      ReadyBlock parseReferenceTimeMs origin calls event round reference ordering arrivals := by
  obtain ⟨_, round, tracked, ordering, reference, boundary,
    ⟨found, _, isOrdering, isReference⟩, ready, rfl⟩ := mem_emitted_iff.mp returned
  obtain ⟨sameCoin, sameProvider⟩ := source_run reached
  have latest := latestArrival_of_readyAt ready
  have orderingHeld : orderingSlot round before = some (some ordering) := by
    unfold orderingSlot
    rw [found, Option.map_some, isOrdering]
  have noOrdering : orderingSlot round origin = none := by
    unfold orderingSlot
    rw [noRounds round]
    rfl
  refine ⟨round, reference, ordering,
    fun sig => (bundleArrival before.bundles sig).getD (0, 0), ?_⟩
  have recorded : ∀ sig ∈ reference.bundleSigs, ∃ arrival,
      bundleArrival before.bundles sig = some arrival ∧
        (bundleArrival before.bundles sig).getD (0, 0) = arrival ∧ arrival.1 ≤ boundary.1 := by
    intro sig member
    obtain ⟨arrival, isArrival, le⟩ := latest.bundle_le sig member
    exact ⟨arrival, isArrival, by rw [isArrival]; rfl, le⟩
  constructor
  · rw [← sameCoin]
    rfl
  · rw [← sameProvider]
    rfl
  · exact accepted_of_run noRounds reached found isReference
  · exact ((ordering_writeOnce round).history noOrdering reached).2 ordering orderingHeld
  · intro sig member
    obtain ⟨arrival, isArrival, same, _⟩ := recorded sig member
    have bundleHeld : bundleSlot sig before = some (some arrival) := by
      unfold bundleSlot
      rw [isArrival]
      rfl
    have noBundle : bundleSlot sig origin = none := by
      unfold bundleSlot bundleArrival
      rw [noBundles sig]
      rfl
    rw [same]
    exact ((bundle_writeOnce sig).history noBundle reached).2 arrival bundleHeld
  · exact latest.ordering_le
  · intro sig member
    obtain ⟨arrival, _, same, le⟩ := recorded sig member
    rw [same]
    exact le
  · refine latest.attained.imp_right ?_
    rintro ⟨sig, member, isBoundary⟩
    refine ⟨sig, member, ?_⟩
    rw [isBoundary]
    rfl

/--
When each round's line comes at most once, every event is that of a block which
is ready with the last of its required arrivals, and a round has at most one.
-/
theorem block_ready_last_arrival (provider : Provider) (coin : String) (nowMs : Nat)
    {calls : List AssemblyCall}
    (once : ((calls.filterMap AssemblyCall.reference).map ReferenceLine.r).Nodup) :
    (∀ front call back before event, calls = front ++ call :: back →
      run (step parseReferenceTimeMs) (Assembly.new provider coin nowMs) front = some before →
      event ∈ before.emitted call → ∃ round reference ordering arrivals,
        ReadyBlock parseReferenceTimeMs (Assembly.new provider coin nowMs) front event round
          reference ordering arrivals) ∧
    ∀ round, eventsOf round
      (emissions (step parseReferenceTimeMs) emitted (Assembly.new provider coin nowMs) calls) ≤
        1 := by
  constructor
  · intro front call back before event _ reached returned
    exact readyBlock_of_emitted (fun _ => rfl) (fun _ => rfl) reached returned
  · intro round
    have single : linesOf round calls ≤ 1 := by
      have atMost := List.nodup_iff_count_le_one.mp once round
      rw [List.count_eq_countP, List.countP_map] at atMost
      refine Nat.le_trans (Nat.le_of_eq ?_) atMost
      refine List.countP_congr fun line _ => ?_
      simp
    obtain ⟨final, executed⟩ :=
      exists_run (step parseReferenceTimeMs) (fun _ _ => ⟨_, rfl⟩)
        (Assembly.new provider coin nowMs) calls
    exact (eventsOf_run round rfl executed).trans single

/-- A block whose bundle comes before its line and twice, and whose ordering comes twice. -/
def sampleBlockCalls : List AssemblyCall :=
  [.trackBundle (Vector.replicate 32 0) 1 1786372995201 1,
    .trackReference { firstLine with b := [("0x1", some "0x0", 1)] } 2,
    .trackOrdering 2000000 3 1786372995203, .trackOrdering 2000000 4 1786372995204,
    .trackBundle (Vector.replicate 32 0) 5 1786372995205 5]

/-- The copies change neither stamp: the block was ready with its first ordering record. -/
theorem block_ready_sample : ∃ before event,
    run (step sampleTimeMs) sampleAssembly sampleBlockCalls = some before ∧
      before.emitted (.drainReady .stored 6) = [event] ∧
      event.received = 3 ∧ event.receivedWallMs = 1786372995203 ∧
      event.key.eventMs = 1786372995093 ∧
      (∃ round reference ordering arrivals,
        ReadyBlock sampleTimeMs sampleAssembly sampleBlockCalls event round reference ordering
          arrivals) ∧
      eventsOf 2000000 (emissions (step sampleTimeMs) emitted sampleAssembly
        (sampleBlockCalls ++ [.drainReady .stored 6])) ≤ 1 := by
  have observed : (run (step sampleTimeMs) sampleAssembly sampleBlockCalls).map (fun before =>
      (before.emitted (.drainReady .stored 6)).map fun event =>
        (event.received, event.receivedWallMs, event.key.eventMs)) =
      some [(3, 1786372995203, 1786372995093)] := by decide +kernel
  obtain ⟨before, reached, drained⟩ := Option.map_eq_some_iff.mp observed
  obtain ⟨event, single, stamps⟩ := List.map_eq_singleton_iff.mp drained
  obtain ⟨received, wall, eventMs⟩ : event.received = 3 ∧ event.receivedWallMs = 1786372995203 ∧
      event.key.eventMs = 1786372995093 := by simpa using stamps
  have once : (((sampleBlockCalls ++ [AssemblyCall.drainReady .stored 6]).filterMap
      AssemblyCall.reference).map ReferenceLine.r).Nodup := by decide
  obtain ⟨ready, most⟩ :=
    block_ready_last_arrival .quickNodePeeringTcp "BLOCKS" 1786372900000 once
  refine ⟨before, event, reached, single, received, wall, eventMs, ?_, most 2000000⟩
  exact ready _ _ [] before event rfl reached (single ▸ List.mem_singleton_self event)

end Assembly

end MarketBenchmark
