import MarketBenchmark.Peering.Arrivals

/-!
# Rounds that complete past their deadline

A drain asks whether a round is complete before it asks whether its deadline
has passed.  A round that completes past its deadline is a gap only if some
drain ran after the deadline and before the completion; otherwise the next
drain returns it as an event, later than the deadline allows.
-/

namespace MarketBenchmark

open Foundation.HashMaps Foundation.Runs

variable {parseReferenceTimeMs : String → Option Nat}

/-! ## The wire leg -/

namespace Assembly

variable {assembly : Assembly} {call : AssemblyCall}

/-- Every tracked round has the instant at which it was first seen. -/
def Stamped (assembly : Assembly) : Prop :=
  ∀ round tracked, assembly.rounds.lookup round = some tracked →
    ∃ seen, tracked.firstSeen = some seen

theorem stamped_new (provider : Provider) (coin : String) (nowMs : Nat) :
    (Assembly.new provider coin nowMs).Stamped := by
  rintro round tracked ⟨⟩

theorem Stamped.next (stamped : assembly.Stamped) (call : AssemblyCall) :
    (assembly.next parseReferenceTimeMs call).Stamped := by
  intro round
  have after := assembly.roundAfter parseReferenceTimeMs call round
  generalize (assembly.next parseReferenceTimeMs call).rounds.lookup round = entry at after ⊢
  cases after with
  | same _ => exact stamped round
  | gone => exact nofun
  | ordered arrival wallMs isCall isPlausible =>
      rintro _ ⟨⟩
      exact ⟨_, rfl⟩
  | named line now reference isCall own accepted scored =>
      rintro _ ⟨⟩
      exact ⟨_, rfl⟩
  | drained order now tracked isCall found =>
      rintro _ ⟨⟩
      obtain ⟨seen, firstSeen⟩ := stamped round tracked found
      refine ⟨seen, ?_⟩
      unfold report
      split
      · exact firstSeen
      · exact firstSeen

/-- The event was received at most the deadline after its round was first seen. -/
def InTime (assembly : Assembly) (event : MarketEvent) : Prop :=
  ∃ round tracked seen, event.key.content = .peering round ∧
    assembly.rounds.lookup round = some tracked ∧ tracked.firstSeen = some seen ∧
    event.received ≤ seen + incompleteDeadline

/-- An undecided round has everything that it needs, and some of it came past the deadline. -/
def CompletedLate (assembly : Assembly) (round : Nat) : Prop :=
  ∃ tracked ordering reference seen, assembly.Completes round tracked ordering reference ∧
    tracked.firstSeen = some seen ∧
    (∀ sig ∈ reference.bundleSigs, ∃ arrival,
      bundleArrival assembly.bundles sig = some arrival) ∧
    (seen + incompleteDeadline < ordering.1 ∨ ∃ sig ∈ reference.bundleSigs, ∃ arrival,
      bundleArrival assembly.bundles sig = some arrival ∧ seen + incompleteDeadline < arrival.1)

/-- The call is not a drain that comes upon a round which completed past its deadline. -/
def DrainsInTime (assembly : Assembly) (call : AssemblyCall) : Prop :=
  ∀ order now, call = .drainReady order now → ∀ round, ¬assembly.CompletedLate round

theorem emitted_inTime_iff (stamped : assembly.Stamped) :
    (∀ event ∈ assembly.emitted call, assembly.InTime event) ↔ assembly.DrainsInTime call := by
  constructor
  · rintro inTime order now rfl round
      ⟨tracked, ordering, reference, seen, completes, firstSeen, recorded, late⟩
    obtain ⟨boundary, ready⟩ := exists_readyAt recorded ordering
    obtain ⟨other, otherTracked, otherSeen, isRound, found, otherFirst, received⟩ :=
      inTime _ (mem_emitted_iff.mpr ⟨⟨order, now, rfl⟩, round, tracked, ordering, reference,
        boundary, completes, ready, rfl⟩)
    cases isRound
    cases Option.some.inj (found.symm.trans completes.found)
    cases Option.some.inj (otherFirst.symm.trans firstSeen)
    have latest := latestArrival_of_readyAt ready
    have boundaryInTime : boundary.1 ≤ seen + incompleteDeadline := received
    rcases late with late | ⟨sig, member, arrival, isArrival, late⟩
    · exact absurd (latest.ordering_le.trans boundaryInTime) (Nat.not_le.mpr late)
    · obtain ⟨same, isSame, before⟩ := latest.bundle_le sig member
      cases Option.some.inj (isArrival.symm.trans isSame)
      exact absurd (before.trans boundaryInTime) (Nat.not_le.mpr late)
  · intro drains event returned
    obtain ⟨⟨order, now, isDrain⟩, round, tracked, ordering, reference, boundary, completes,
      ready, rfl⟩ := mem_emitted_iff.mp returned
    obtain ⟨seen, firstSeen⟩ := stamped round tracked completes.found
    refine ⟨round, tracked, seen, rfl, completes.found, firstSeen, ?_⟩
    have latest := latestArrival_of_readyAt ready
    refine Nat.le_of_not_lt fun late => ?_
    have boundaryLate : seen + incompleteDeadline < boundary.1 := late
    refine drains order now isDrain round ⟨tracked, ordering, reference, seen, completes,
      firstSeen, fun sig member => ?_, ?_⟩
    · obtain ⟨arrival, isArrival, _⟩ := latest.bundle_le sig member
      exact ⟨arrival, isArrival⟩
    · rcases latest.attained with same | ⟨sig, member, isBoundary⟩
      · exact Or.inl (same ▸ boundaryLate)
      · exact Or.inr ⟨sig, member, boundary, isBoundary, boundaryLate⟩

end Assembly

/-! ## The decoded leg -/

namespace DecodedAssembly

variable {assembly : DecodedAssembly} {call : Call}

/-- Every tracked round has the instant at which it was first seen. -/
def Stamped (assembly : DecodedAssembly) : Prop :=
  ∀ round tracked, assembly.rounds.lookup round = some tracked →
    ∃ seen, tracked.firstSeen = some seen

theorem stamped_new (coin : String) : (DecodedAssembly.new coin).Stamped := by
  rintro round tracked ⟨⟩

theorem lineEntry_firstSeen (before : DecodedRound) (line : DecodedLine) (arrival wallMs : Nat) :
    (lineEntry before line arrival wallMs).firstSeen =
      some (before.firstSeen.getD arrival) := by
  unfold lineEntry
  dsimp only
  split
  · rfl
  · split <;> rfl

theorem Stamped.next (stamped : assembly.Stamped) (call : Call) :
    (assembly.next parseReferenceTimeMs call).Stamped := by
  intro round
  have after := assembly.roundAfter parseReferenceTimeMs call round
  generalize (assembly.next parseReferenceTimeMs call).rounds.lookup round = entry at after ⊢
  cases after with
  | same _ => exact stamped round
  | gone => exact nofun
  | lined line arrival wallMs isCall own tracks =>
      rintro _ ⟨⟩
      exact ⟨_, lineEntry_firstSeen _ line arrival wallMs⟩
  | named line now timeMs hashes isCall own time bundles =>
      rintro _ ⟨⟩
      exact ⟨_, rfl⟩
  | drained order now tracked isCall found =>
      rintro _ ⟨⟩
      obtain ⟨seen, firstSeen⟩ := stamped round tracked found
      refine ⟨seen, ?_⟩
      split
      · exact firstSeen
      · exact firstSeen

/-- The event was received at most the deadline after its round was first seen. -/
def InTime (assembly : DecodedAssembly) (event : MarketEvent) : Prop :=
  ∃ round tracked seen, event.key.content = .peering round ∧
    assembly.rounds.lookup round = some tracked ∧ tracked.firstSeen = some seen ∧
    event.received ≤ seen + incompleteDeadline

/-- An undecided round has the chain's block, which came past the deadline. -/
def CompletedLate (assembly : DecodedAssembly) (round : Nat) : Prop :=
  ∃ tracked arrived wall timeMs hashes seen,
    assembly.Completes round tracked arrived wall timeMs hashes ∧
    tracked.firstSeen = some seen ∧ seen + incompleteDeadline < arrived

/-- The call is not a drain that comes upon a round which completed past its deadline. -/
def DrainsInTime (assembly : DecodedAssembly) (call : Call) : Prop :=
  ∀ order now, call = .drainReady order now → ∀ round, ¬assembly.CompletedLate round

theorem emitted_inTime_iff (stamped : assembly.Stamped) :
    (∀ event ∈ assembly.emitted call, assembly.InTime event) ↔ assembly.DrainsInTime call := by
  constructor
  · rintro inTime order now rfl round
      ⟨tracked, arrived, wall, timeMs, hashes, seen, completes, firstSeen, late⟩
    obtain ⟨other, otherTracked, otherSeen, isRound, found, otherFirst, received⟩ :=
      inTime _ (mem_emitted_iff.mpr ⟨⟨order, now, rfl⟩, round, tracked, arrived, wall, timeMs,
        hashes, completes, rfl⟩)
    cases isRound
    cases Option.some.inj (found.symm.trans completes.found)
    cases Option.some.inj (otherFirst.symm.trans firstSeen)
    exact absurd received (Nat.not_le.mpr late)
  · intro drains event returned
    obtain ⟨⟨order, now, isDrain⟩, round, tracked, arrived, wall, timeMs, hashes, completes,
      rfl⟩ := mem_emitted_iff.mp returned
    obtain ⟨seen, firstSeen⟩ := stamped round tracked completes.found
    refine ⟨round, tracked, seen, rfl, completes.found, firstSeen, ?_⟩
    refine Nat.le_of_not_lt fun late => drains order now isDrain round ?_
    exact ⟨tracked, arrived, wall, timeMs, hashes, seen, completes, firstSeen, late⟩

end DecodedAssembly

/-! ## Runs -/

/--
The events of a run are all received within the deadline of their rounds exactly
when none of its drains comes upon an undecided round that completed past the
deadline, on either leg.
-/
theorem late_rounds_out_iff (provider : Provider) (coin decodedCoin : String) (nowMs : Nat)
    (calls : List Assembly.AssemblyCall) (decodedCalls : List DecodedAssembly.Call) :
    (StepsMeet (Assembly.step parseReferenceTimeMs)
        (fun assembly call => ∀ event ∈ assembly.emitted call, assembly.InTime event)
        (Assembly.new provider coin nowMs) calls ↔
      StepsMeet (Assembly.step parseReferenceTimeMs) Assembly.DrainsInTime
        (Assembly.new provider coin nowMs) calls) ∧
    (StepsMeet (DecodedAssembly.step parseReferenceTimeMs)
        (fun assembly call => ∀ event ∈ assembly.emitted call, assembly.InTime event)
        (DecodedAssembly.new decodedCoin) decodedCalls ↔
      StepsMeet (DecodedAssembly.step parseReferenceTimeMs) DecodedAssembly.DrainsInTime
        (DecodedAssembly.new decodedCoin) decodedCalls) := by
  constructor
  · refine stepsMeet_congr Assembly.Stamped (fun before call after stamped stepped => ?_)
      (fun _ _ stamped => Assembly.emitted_inTime_iff stamped)
      (Assembly.stamped_new provider coin nowMs) calls
    cases Option.some.inj stepped
    exact stamped.next call
  · refine stepsMeet_congr DecodedAssembly.Stamped (fun before call after stamped stepped => ?_)
      (fun _ _ stamped => DecodedAssembly.emitted_inTime_iff stamped)
      (DecodedAssembly.stamped_new decodedCoin) decodedCalls
    cases Option.some.inj stepped
    exact stamped.next call

/-! ## A drain that comes too late -/

/-- The reference line names the round at the start, and its ordering comes six seconds later. -/
def lateOrdering : List Assembly.AssemblyCall :=
  [.trackReference Assembly.firstLine 0, .trackOrdering 2000000 (fromSecs 6) 1786373001000,
    .drainReady .stored (fromSecs 7)]

/-- The first drain returns the round, a second past its deadline. -/
theorem late_round_returned :
    (emissions (Assembly.step Assembly.sampleTimeMs) Assembly.emitted Assembly.sampleAssembly
        lateOrdering).map (fun event => event.received) = [fromSecs 6] ∧
      ((run (Assembly.step Assembly.sampleTimeMs) Assembly.sampleAssembly lateOrdering).bind
        fun final => (final.rounds.lookup 2000000).bind TrackedRound.firstSeen) = some 0 ∧
      0 + incompleteDeadline < fromSecs 6 := by
  decide +kernel

end MarketBenchmark
