import MarketBenchmark.Benchmark.Sealing

/-!
# Admission soundness

Every cohort in a ring is traced back to the calls of one lifetime of its base:
the base was not pending before them, was pending throughout, and was settled
at their end.  All active providers delivered the cohort's key in that lifetime,
within the deadline of every event that the base received in it.

The invariant keeps two kinds of evidence about the executed calls: one for
every pending base, one for every cohort.  A settlement turns the first into
the second.
-/

namespace MarketBenchmark

open Foundation.HashMaps
open Foundation.TimedRing
open Foundation.Runs

namespace Benchmark

/-! ## Events of a base and its lifetime -/

/-- One of the calls records the accepted event, and it belongs to the base. -/
def Received (config : BenchmarkConfig) (base : BaseKey) (calls : List Call)
    (event : MarketEvent) : Prop :=
  (∃ order, Call.record order (.market event) ∈ calls) ∧ event.key.base = base ∧
    Accepted config event

def PendingAfter (origin : Benchmark) (base : BaseKey) (calls : List Call) : Prop :=
  ∃ state, run step origin calls = some state ∧ base ∈ state.pending

def NotPendingAfter (origin : Benchmark) (base : BaseKey) (calls : List Call) : Prop :=
  ∃ state, run step origin calls = some state ∧ base ∉ state.pending

/-- The base has been pending since the first of the calls `during`. -/
structure OpenSince (origin : Benchmark) (base : BaseKey) (before during : List Call) :
    Prop where
  closed : NotPendingAfter origin base before
  nonempty : during ≠ []
  stays : ∀ front back, during = front ++ back → front ≠ [] → back ≠ [] →
    PendingAfter origin base (before ++ front)

/-- The base was opened by the first of the calls `during`, and settled by the last of
them or by the call that follows. -/
structure Lifetime (origin : Benchmark) (base : BaseKey) (before during after : List Call) :
    Prop extends OpenSince origin base before during where
  settled : NotPendingAfter origin base (before ++ during) ∨
    ∃ call rest, after = call :: rest ∧ PendingAfter origin base (before ++ during) ∧
      NotPendingAfter origin base (before ++ during ++ [call])

/-- The arrivals of the active providers that justify a cohort. -/
structure Justified (config : BenchmarkConfig) (key : EventKey) (during : List Call)
    (cohort : CommittedCohort) (arrival : Provider → MarketEvent) : Prop where
  delivered : ∀ provider ∈ config.providers,
    Received config key.base during (arrival provider) ∧
      (arrival provider).provider = provider ∧ (arrival provider).key = key
  inTime : ∀ provider ∈ config.providers, ∀ event, Received config key.base during event →
    (arrival provider).received < event.received + config.cohortTimeout
  notAfter : ∀ provider ∈ config.providers,
    (arrival provider).received ≤ cohort.committedAt
  latest : ∃ provider ∈ config.providers, (arrival provider).received = cohort.committedAt
  latency : ∀ provider ∈ config.providers,
    key.eventMs ≤ (arrival provider).receivedWallMs ∧
      cohort.latencyMs provider = (arrival provider).receivedWallMs - key.eventMs
  inactive : ∀ provider, provider ∉ config.providers → cohort.latencyMs provider = 0

/-- A cohort of a coin is admitted by the calls: one key and one lifetime justify it. -/
def AdmittedBy (origin : Benchmark) (calls : List Call) (coin : String)
    (cohort : CommittedCohort) : Prop :=
  ∃ key : EventKey, key.coin = coin ∧ cohort.eventMs = key.eventMs ∧
    ∃ before during after, calls = before ++ during ++ after ∧
      Lifetime origin key.base before during after ∧
      ∃ arrival, Justified origin.config key during cohort arrival

/-! ## Evidence for a pending base -/

/-- What the calls of its lifetime say about a pending base. -/
structure Evident (config : BenchmarkConfig) (base : BaseKey) (during : List Call)
    (pending : PendingBase) : Prop where
  firstObserved : ∀ event, Received config base during event →
    pending.firstObserved ≤ event.received
  arrivals : ∀ content candidate, pending.candidates.lookup content = some candidate →
    ∀ provider arrival, candidate.arrivals provider = some arrival →
      ∃ event, Received config base during event ∧ event.provider = provider ∧
        event.key.content = content ∧ event.received = arrival.received ∧
        event.receivedWallMs = arrival.receivedWallMs

variable {config : BenchmarkConfig} {base : BaseKey} {during : List Call}

theorem Received.mono {event : MarketEvent} (received : Received config base during event)
    (call : Call) : Received config base (during ++ [call]) event := by
  obtain ⟨⟨order, member⟩, sameBase, accepted⟩ := received
  exact ⟨⟨order, List.mem_append_left [call] member⟩, sameBase, accepted⟩

/-- The appended call receives nothing else. -/
theorem received_append {call : Call} {event : MarketEvent}
    (received : Received config base (during ++ [call]) event) :
    Received config base during event ∨
      ((∃ order, call = .record order (.market event)) ∧ event.key.base = base ∧
        Accepted config event) := by
  obtain ⟨⟨order, member⟩, sameBase, accepted⟩ := received
  rcases List.mem_append.mp member with earlier | last
  · exact Or.inl ⟨⟨order, earlier⟩, sameBase, accepted⟩
  · exact Or.inr ⟨⟨order, (List.mem_singleton.mp last).symm⟩, sameBase, accepted⟩

theorem received_nil (event : MarketEvent) : ¬Received config base [] event := by
  rintro ⟨⟨order, member⟩, _⟩
  cases member

/-- A call that receives nothing for the base leaves its evidence as it is. -/
theorem Evident.frame {pending : PendingBase} (evident : Evident config base during pending)
    {call : Call} (quiet : ∀ order event, call = .record order (.market event) →
      event.key.base = base → ¬Accepted config event) :
    Evident config base (during ++ [call]) pending := by
  constructor
  · intro event received
    rcases received_append received with earlier | ⟨⟨order, same⟩, sameBase, accepted⟩
    · exact evident.firstObserved event earlier
    · exact absurd accepted (quiet order event same sameBase)
  · intro content candidate found provider arrival arrived
    obtain ⟨event, received, rest⟩ :=
      evident.arrivals content candidate found provider arrival arrived
    exact ⟨event, received.mono call, rest⟩

/-- Before its first call a base has received nothing. -/
theorem Evident.fresh (firstObserved : Nat) :
    Evident config base [] (PendingBase.new firstObserved) := by
  constructor
  · intro event received
    exact absurd received (received_nil event)
  · intro content candidate found
    cases found

section Stored

variable {benchmark : Benchmark} {event : MarketEvent} {order : IterationOrder}

/-- Opening the base of a received event extends its evidence by that event. -/
theorem Evident.open (order : IterationOrder)
    (evident : Evident config event.key.base during
      ((benchmark.pending.lookup event.key.base).getD (PendingBase.new event.received))) :
    Evident config event.key.base (during ++ [.record order (.market event)])
      (benchmark.openedBase event) := by
  constructor
  · intro other received
    rcases received_append received with earlier | ⟨⟨_, same⟩, _, _⟩
    · exact Nat.le_trans (Nat.min_le_left _ _) (evident.firstObserved other earlier)
    · cases same
      exact Nat.min_le_right _ _
  · intro content candidate found provider arrival arrived
    obtain ⟨other, received, rest⟩ :=
      evident.arrivals content candidate found provider arrival arrived
    exact ⟨other, received.mono _, rest⟩

/-- The opened candidate holds the arrivals that its base held for its content. -/
theorem openedCandidate_arrivals {provider : Provider} {arrival : Observation}
    (arrived : (benchmark.openedCandidate event).arrivals provider = some arrival) :
    ∃ stored, (benchmark.openedBase event).candidates.lookup event.key.content = some stored ∧
      stored.arrivals provider = some arrival := by
  unfold openedCandidate at arrived
  dsimp only at arrived
  cases found : (benchmark.openedBase event).candidates.lookup event.key.content with
  | none =>
      rw [found] at arrived
      cases arrived
  | some stored =>
      rw [found] at arrived
      exact ⟨stored, rfl, arrived⟩

/-- Putting a candidate into the opened base keeps the evidence when each of its
arrivals is the received event or was there already. -/
theorem Evident.hold {calls : List Call}
    (evident : Evident config event.key.base calls (benchmark.openedBase event))
    (candidate : PendingCandidate)
    (known : ∀ provider arrival, candidate.arrivals provider = some arrival →
      (benchmark.openedCandidate event).arrivals provider = some arrival ∨
        (Received config event.key.base calls event ∧ event.provider = provider ∧
          event.received = arrival.received ∧ event.receivedWallMs = arrival.receivedWallMs)) :
    Evident config event.key.base calls (benchmark.heldBase event candidate) := by
  refine ⟨evident.firstObserved, ?_⟩
  intro content stored found provider arrival arrived
  rcases HashMap.lookup_insert_eq_some.mp found with ⟨sameContent, same⟩ | ⟨_, before⟩
  · rw [← same] at arrived
    rcases known provider arrival arrived with earlier | ⟨received, sameProvider, sameInstant⟩
    · obtain ⟨other, otherFound, otherArrived⟩ := openedCandidate_arrivals earlier
      rw [sameContent]
      exact evident.arrivals event.key.content other otherFound provider arrival otherArrived
    · exact ⟨event, received, sameProvider, sameContent.symm, sameInstant⟩
  · exact evident.arrivals content stored before provider arrival arrived

theorem withArrival_arrivals {candidate : PendingCandidate} {provider : Provider}
    {arrival : Observation}
    (arrived : (withArrival candidate event).arrivals provider = some arrival) :
    candidate.arrivals provider = some arrival ∨
      (event.provider = provider ∧ event.received = arrival.received ∧
        event.receivedWallMs = arrival.receivedWallMs) := by
  unfold withArrival at arrived
  dsimp only at arrived
  rw [Function.update_apply] at arrived
  split at arrived
  · next own =>
      cases arrived
      exact Or.inr ⟨own.symm, rfl, rfl⟩
  · exact Or.inl arrived

end Stored

/-! ## From a settled base to a justified cohort -/

/-- An event of the base with the content is the event the candidate stands for. -/
theorem key_eq_eventKey {event : MarketEvent} {content : ContentKey}
    (sameBase : event.key.base = base) (sameContent : event.key.content = content) :
    event.key = eventKey base content := by
  subst sameBase
  subst sameContent
  rfl

/-- Every kept arrival of an active provider has its event, in time for its base. -/
theorem Evident.kept {order : IterationOrder} {pending : PendingBase} {content : ContentKey}
    {candidate : PendingCandidate} (evident : Evident config base during pending)
    (member : (content, candidate) ∈ canonical order config pending)
    {provider : Provider} (active : provider ∈ config.providers) {arrival : Observation}
    (arrived : candidate.arrivals provider = some arrival) :
    ∃ event, Received config base during event ∧ event.provider = provider ∧
      event.key = eventKey base content ∧ event.received = arrival.received ∧
      event.receivedWallMs = arrival.receivedWallMs ∧
      arrival.received < pending.firstObserved + config.cohortTimeout := by
  obtain ⟨stored, found, same⟩ := mem_admitted order (List.mem_of_mem_filter member)
  rw [same] at arrived
  obtain ⟨wasStored, timely⟩ := arrivals_withoutLate active arrived
  obtain ⟨event, received, sameProvider, sameContent, sameInstant, sameWall⟩ :=
    evident.arrivals content stored found provider arrival wasStored
  exact ⟨event, received, sameProvider, key_eq_eventKey received.2.1 sameContent,
    sameInstant, sameWall, by omega⟩

/-- A cohort committed from a base with evidence is justified by it. -/
theorem CommittedFrom.justified {order : IterationOrder} {pending : PendingBase}
    {cohort : CommittedCohort} (committed : CommittedFrom order config base pending cohort)
    (evident : Evident config base during pending) :
    ∃ key : EventKey, key.base = base ∧ cohort.eventMs = key.eventMs ∧
      ∃ arrival, Justified config key during cohort arrival := by
  obtain ⟨content, candidate, serial, member, complete, rfl⟩ := committed
  have sources : ∀ provider, ∃ event, provider ∈ config.providers →
      ∃ arrival, candidate.arrivals provider = some arrival ∧
        Received config base during event ∧ event.provider = provider ∧
        event.key = eventKey base content ∧ event.received = arrival.received ∧
        event.receivedWallMs = arrival.receivedWallMs ∧
        arrival.received < pending.firstObserved + config.cohortTimeout := by
    intro provider
    by_cases active : provider ∈ config.providers
    · obtain ⟨arrival, arrived⟩ := PendingCandidate.arrival_of_complete complete active
      obtain ⟨event, facts⟩ := evident.kept member active arrived
      exact ⟨event, fun _ => ⟨arrival, arrived, facts⟩⟩
    · exact ⟨⟨provider, eventKey base content, 0, 0⟩, fun isActive => absurd isActive active⟩
  choose source facts using sources
  obtain ⟨_, _, received, _, sameKey, _, _, _⟩ :=
    facts config.referenceProvider config.referenceProvider_mem
  have sameBase : (eventKey base content).base = base := by
    rw [← sameKey]
    exact received.2.1
  refine ⟨eventKey base content, sameBase, rfl, source, ?_⟩
  constructor
  · intro provider active
    obtain ⟨_, _, received, sameProvider, sameKey, _, _, _⟩ := facts provider active
    rw [sameBase]
    exact ⟨received, sameProvider, sameKey⟩
  · intro provider active event received
    obtain ⟨_, _, _, _, _, sameInstant, _, timely⟩ := facts provider active
    rw [sameBase] at received
    have observed := evident.firstObserved event received
    omega
  · intro provider active
    obtain ⟨arrival, arrived, _, _, _, sameInstant, _, _⟩ := facts provider active
    rw [sameInstant]
    exact PendingCandidate.received_le_latestArrival active arrived
  · obtain ⟨_, arrived, _, _, _, _, _, _⟩ :=
      facts config.referenceProvider config.referenceProvider_mem
    have delivered : candidate.hasArrival config.referenceProvider = true :=
      Option.isSome_of_eq_some arrived
    obtain ⟨latest, last, active, isLast, greatest⟩ :=
      PendingCandidate.exists_latestArrival config.referenceProvider_mem delivered
    obtain ⟨arrival, same, _, _, _, sameInstant, _, _⟩ := facts latest active
    cases Option.some.inj (isLast.symm.trans same)
    exact ⟨latest, active, sameInstant.trans greatest⟩
  · intro provider active
    obtain ⟨arrival, arrived, received, _, sameKey, _, sameWall, _⟩ := facts provider active
    have past := received.2.2.past
    rw [sameKey] at past
    refine ⟨past, ?_⟩
    change latencyRow config candidate _ provider = _
    unfold latencyRow
    rw [if_pos active, arrived, sameWall]
  · intro provider inactive
    change latencyRow config candidate _ provider = 0
    unfold latencyRow
    rw [if_neg inactive]

/-! ## States reached without storing an arrival -/

/-- Two cohorts that differ at most in whether their outcome was reported. -/
structure SameSample (first second : CommittedCohort) : Prop where
  eventMs : first.eventMs = second.eventMs
  committedAt : first.committedAt = second.committedAt
  latencyMs : first.latencyMs = second.latencyMs

theorem SameSample.refl (cohort : CommittedCohort) : SameSample cohort cohort :=
  ⟨rfl, rfl, rfl⟩

theorem SameSample.trans {first second third : CommittedCohort}
    (left : SameSample first second) (right : SameSample second third) :
    SameSample first third :=
  ⟨left.eventMs.trans right.eventMs, left.committedAt.trans right.committedAt,
    left.latencyMs.trans right.latencyMs⟩

theorem Justified.congr {key : EventKey} {first second : CommittedCohort}
    {arrival : Provider → MarketEvent} (justified : Justified config key during second arrival)
    (same : SameSample first second) : Justified config key during first arrival := by
  refine ⟨justified.delivered, justified.inTime, ?_, ?_, ?_, ?_⟩
  · rw [same.committedAt]
    exact justified.notAfter
  · rw [same.committedAt]
    exact justified.latest
  · rw [same.latencyMs]
    exact justified.latency
  · rw [same.latencyMs]
    exact justified.inactive

/-- The cohort entered a ring when the base, pending in the first state, was settled. -/
def SettledFrom (before state : Benchmark) (coin : String) (cohort : CommittedCohort) : Prop :=
  ∃ order base pending committed, before.pending.lookup base = some pending ∧
    base ∉ state.pending ∧ base.coin = coin ∧
    CommittedFrom order before.config base pending committed ∧ SameSample cohort committed

/--
Between two states bases are only settled: what is pending was pending, and a new
cohort comes from a base that was pending and no longer is.
-/
structure Shrinks (before state : Benchmark) : Prop where
  config : state.config = before.config
  pending : ∀ base pending, state.pending.lookup base = some pending →
    before.pending.lookup base = some pending
  cohorts : ∀ coin cohort, cohort ∈ (state.windows coin).cohorts →
    (∃ earlier ∈ (before.windows coin).cohorts, SameSample cohort earlier) ∨
      SettledFrom before state coin cohort

section Shrinks

variable {before state : Benchmark}

theorem Shrinks.refl (state : Benchmark) : Shrinks state state :=
  ⟨rfl, fun _ _ found => found,
    fun _ cohort member => Or.inl ⟨cohort, member, SameSample.refl cohort⟩⟩

/-- A change of neither the pending map nor the samples of the rings. -/
theorem Shrinks.frame (shrinks : Shrinks before state) {after : Benchmark}
    (sameConfig : after.config = state.config) (samePending : after.pending = state.pending)
    (sameCohorts : ∀ coin cohort, cohort ∈ (after.windows coin).cohorts →
      ∃ earlier ∈ (state.windows coin).cohorts, SameSample cohort earlier) :
    Shrinks before after := by
  refine ⟨sameConfig.trans shrinks.config, ?_, ?_⟩
  · rw [samePending]
    exact shrinks.pending
  · intro coin cohort member
    unfold SettledFrom
    rw [samePending]
    obtain ⟨middle, middleMember, same⟩ := sameCohorts coin cohort member
    rcases shrinks.cohorts coin middle middleMember with
      ⟨earlier, earlierMember, earlierSame⟩ |
      ⟨order, base, pending, committed, found, absent, own, from_, committedSame⟩
    · exact Or.inl ⟨earlier, earlierMember, same.trans earlierSame⟩
    · exact Or.inr ⟨order, base, pending, committed, found, absent, own, from_,
        same.trans committedSame⟩

theorem Shrinks.settle (shrinks : Shrinks before state) (order : IterationOrder)
    (key : BaseKey) (now : Nat) (evicted : Bool) :
    Shrinks before (state.settle order key now evicted) := by
  refine ⟨(settle_config order state key now evicted).trans shrinks.config, ?_, ?_⟩
  · intro base pending found
    rw [settle_pending] at found
    exact shrinks.pending base pending (HashMap.lookup_erase_eq_some.mp found).2
  · intro coin cohort member
    rcases mem_cohorts_settle order state member with old | ⟨pending, found, own, committed⟩
    · rcases shrinks.cohorts coin cohort old with
        kept | ⟨other, base, pending, committed, found, absent, own, from_, same⟩
      · exact Or.inl kept
      · refine Or.inr ⟨other, base, pending, committed, found, ?_, own, from_, same⟩
        rw [settle_pending]
        exact fun present => absent (AList.mem_erase.mp present).2
    · rw [shrinks.config] at committed
      refine Or.inr ⟨order, key, pending, cohort, shrinks.pending key pending found, ?_,
        own.symm, committed, SameSample.refl cohort⟩
      rw [settle_pending]
      exact fun present => (AList.mem_erase.mp present).1 rfl

theorem Shrinks.prune (shrinks : Shrinks before state) (now : Nat) :
    Shrinks before (state.prune now) :=
  shrinks.frame rfl rfl fun _ cohort member =>
    ⟨cohort, List.mem_of_mem_filter member, SameSample.refl cohort⟩

theorem Shrinks.tick (shrinks : Shrinks before state) (order : IterationOrder) (now : Nat) :
    Shrinks before (state.tick order now) :=
  tick_induction order state (Shrinks before) shrinks
    (fun _ key _ _ held => held.settle order key now false)
    (fun _ _ held => held.prune now)

theorem Shrinks.withPrepared (shrinks : Shrinks before state)
    (interval : Option PreparedOutcomeInterval) :
    Shrinks before (state.withPrepared interval) :=
  shrinks.frame rfl rfl fun _ cohort member => ⟨cohort, member, SameSample.refl cohort⟩

theorem Shrinks.withCommitted (shrinks : Shrinks before state)
    (interval : PreparedOutcomeInterval) : Shrinks before (state.withCommitted interval) := by
  refine shrinks.frame rfl rfl fun coin cohort member => ?_
  obtain ⟨earlier, earlierMember, same⟩ := List.mem_map.mp member
  refine ⟨earlier, earlierMember, ?_⟩
  rw [← same]
  split
  · exact ⟨rfl, rfl, rfl⟩
  · exact SameSample.refl earlier

theorem Shrinks.bump (shrinks : Shrinks before state) (coin : String) (provider : Provider)
    (increment : ProviderCounters) : Shrinks before (state.bump coin provider increment) :=
  shrinks.frame rfl rfl fun _ cohort member => ⟨cohort, member, SameSample.refl cohort⟩

theorem Shrinks.markIntegrityLoss (shrinks : Shrinks before state) (coin : String) (now : Nat) :
    Shrinks before (state.markIntegrityLoss coin now) := by
  refine shrinks.frame rfl rfl fun other cohort member => ⟨cohort, ?_, SameSample.refl cohort⟩
  unfold Benchmark.markIntegrityLoss at member
  rw [updateWindow_windows] at member
  split at member
  · exact member
  · exact member

end Shrinks

/--
A call either only settles bases and records no accepted event, or it is the
record of an accepted event.
-/
theorem step_shrinks {benchmark after : Benchmark} {call : Call}
    (stepped : benchmark.step call = some after) :
    (Shrinks benchmark after ∧ ∀ order event, call = .record order (.market event) →
      ¬Accepted benchmark.config event) ∨
    ∃ order event, call = .record order (.market event) ∧ Accepted benchmark.config event ∧
      after = benchmark.recordAccepted order event := by
  have still := Shrinks.refl benchmark
  cases call with
  | record order event =>
      rcases record_cases order benchmark stepped with
        ⟨market, isMarket, recorded⟩ | ⟨notMarket, provider, coin, increment, _, _, same⟩
      · rcases recordMarket_cases order benchmark recorded with
          ⟨inactive, same⟩ | ⟨_, _, rejected, increment, _, same⟩ | ⟨_, accepted, same⟩
        · refine Or.inl ⟨?_, ?_⟩
          · rw [same]
            exact still
          · intro otherOrder other recordedOther accepted
            cases recordedOther
            cases isMarket
            exact inactive accepted.active
        · refine Or.inl ⟨?_, ?_⟩
          · rw [same]
            exact (still.bump _ _ _).markIntegrityLoss _ _
          · intro otherOrder other recordedOther accepted
            cases recordedOther
            cases isMarket
            exact rejected accepted
        · rw [isMarket]
          exact Or.inr ⟨order, market, rfl, accepted, same⟩
      · refine Or.inl ⟨?_, ?_⟩
        · rw [same]
          exact still.bump _ _ _
        · intro otherOrder other recordedOther
          cases recordedOther
          exact absurd rfl (notMarket other)
  | tick order now =>
      cases stepped
      exact Or.inl ⟨still.tick order now, fun _ _ impossible => nomatch impossible⟩
  | windowEvents order now wallNowMs signals clock =>
      obtain ⟨⟨state, rows⟩, prepared, same⟩ := Option.map_eq_some_iff.mp stepped
      obtain ⟨interval, prepared⟩ := windowEvents_cases order benchmark prepared
      refine Or.inl ⟨?_, fun _ _ impossible => nomatch impossible⟩
      rw [← same, prepared]
      exact ((still.withPrepared none).tick order now).withPrepared interval
  | commitPreparedPublication =>
      cases stepped
      refine Or.inl ⟨?_, fun _ _ impossible => nomatch impossible⟩
      rcases commitPreparedPublication_cases benchmark with same | ⟨interval, _, _, _, same⟩
      · rw [same]
        exact still.withPrepared none
      · rw [same]
        exact (still.withPrepared none).withCommitted interval
  | rejectPreparedPublication =>
      cases stepped
      exact Or.inl ⟨still.withPrepared none, fun _ _ impossible => nomatch impossible⟩

/-! ## Appending a call to the evidence -/

variable {origin : Benchmark} {before after : List Call} {calls : List Call}

/-- A base that is still pending stays open over the next call. -/
theorem OpenSince.extend (open_ : OpenSince origin base before during)
    (pending : PendingAfter origin base (before ++ during)) (call : Call) :
    OpenSince origin base before (during ++ [call]) := by
  refine ⟨open_.closed, List.append_ne_nil_of_right_ne_nil during (List.cons_ne_nil call []), ?_⟩
  intro front back split frontNonempty backNonempty
  obtain ⟨body, last, same⟩ := List.eq_nil_or_concat back |>.resolve_left backNonempty
  rw [same, List.concat_eq_append, ← List.append_assoc] at split
  obtain ⟨sameBody, _⟩ := List.append_inj' split rfl
  by_cases empty : body = []
  · rw [empty, List.append_nil] at sameBody
    rw [← sameBody]
    exact pending
  · exact open_.stays front body sameBody frontNonempty empty

theorem Lifetime.extend (lifetime : Lifetime origin base before during after) (call : Call) :
    Lifetime origin base before during (after ++ [call]) := by
  refine ⟨lifetime.toOpenSince, ?_⟩
  rcases lifetime.settled with atEnd | ⟨next, rest, same, pending, settled⟩
  · exact Or.inl atEnd
  · refine Or.inr ⟨next, rest ++ [call], ?_, pending, settled⟩
    rw [same, List.cons_append]

theorem AdmittedBy.extend {coin : String} {cohort : CommittedCohort}
    (admitted : AdmittedBy origin calls coin cohort) (call : Call) :
    AdmittedBy origin (calls ++ [call]) coin cohort := by
  obtain ⟨key, own, times, before, during, after, split, lifetime, evidence⟩ := admitted
  refine ⟨key, own, times, before, during, after ++ [call], ?_, lifetime.extend call, evidence⟩
  rw [split, List.append_assoc]

theorem AdmittedBy.congr {coin : String} {first second : CommittedCohort}
    (admitted : AdmittedBy origin calls coin second) (same : SameSample first second) :
    AdmittedBy origin calls coin first := by
  obtain ⟨key, own, times, before, during, after, split, lifetime, arrival, justified⟩ := admitted
  exact ⟨key, own, same.eventMs.trans times, before, during, after, split, lifetime, arrival,
    justified.congr same⟩

/-- Every pending base and every cohort is backed by the executed calls. -/
structure Traced (origin : Benchmark) (calls : List Call) (state : Benchmark) : Prop where
  pending : ∀ base pending, state.pending.lookup base = some pending →
    ∃ before during, calls = before ++ during ∧ OpenSince origin base before during ∧
      Evident origin.config base during pending
  cohorts : ∀ coin cohort, cohort ∈ (state.windows coin).cohorts →
    AdmittedBy origin calls coin cohort

section Step

variable {benchmark state final : Benchmark} {call : Call}

/-- A base that the call does not concern keeps its evidence. -/
theorem Traced.keep (traced : Traced origin calls benchmark)
    (reached : run step origin calls = some benchmark) {base : BaseKey} {pending : PendingBase}
    (found : benchmark.pending.lookup base = some pending)
    (quiet : ∀ order event, call = .record order (.market event) →
      event.key.base = base → ¬Accepted origin.config event) :
    ∃ before during, calls ++ [call] = before ++ during ∧ OpenSince origin base before during ∧
      Evident origin.config base during pending := by
  obtain ⟨before, during, split, open_, evident⟩ := traced.pending base pending found
  refine ⟨before, during ++ [call], ?_, ?_, evident.frame quiet⟩
  · rw [split, List.append_assoc]
  · refine open_.extend ?_ call
    rw [← split]
    exact ⟨benchmark, reached, HashMap.mem_of_lookup found⟩

/-- A cohort of a base that the call settled is admitted. -/
theorem Traced.admits (traced : Traced origin calls benchmark)
    (sameConfig : benchmark.config = origin.config)
    (reached : run step origin calls = some benchmark)
    (stepped : benchmark.step call = some final) {coin : String} {cohort : CommittedCohort}
    (settled : SettledFrom benchmark final coin cohort) :
    AdmittedBy origin (calls ++ [call]) coin cohort := by
  obtain ⟨order, base, pending, committed, found, absent, own, from_, same⟩ := settled
  obtain ⟨before, during, split, open_, evident⟩ := traced.pending base pending found
  rw [sameConfig] at from_
  obtain ⟨key, sameBase, times, arrival, justified⟩ := from_.justified evident
  subst sameBase
  refine ⟨key, own, same.eventMs.trans times, before, during, [call], by rw [split], ?_,
    arrival, justified.congr same⟩
  refine ⟨open_, Or.inr ⟨call, [], rfl, ?_, ?_⟩⟩
  · rw [← split]
    exact ⟨benchmark, reached, HashMap.mem_of_lookup found⟩
  · rw [← split]
    exact ⟨final, run_concat_of_step reached stepped, absent⟩

/-- Calls that only settle bases keep everything traced. -/
theorem Traced.shrink (traced : Traced origin calls benchmark)
    (sameConfig : benchmark.config = origin.config)
    (reached : run step origin calls = some benchmark)
    (stepped : benchmark.step call = some final) (shrinks : Shrinks benchmark final)
    (quiet : ∀ order event, call = .record order (.market event) →
      event.key.base ∈ final.pending → ¬Accepted origin.config event) :
    Traced origin (calls ++ [call]) final := by
  constructor
  · intro base pending found
    refine traced.keep reached (shrinks.pending base pending found) ?_
    intro order event same sameBase
    refine quiet order event same ?_
    rw [sameBase]
    exact HashMap.mem_of_lookup found
  · intro coin cohort member
    rcases shrinks.cohorts coin cohort member with ⟨earlier, earlierMember, same⟩ | settled
    · exact ((traced.cohorts coin earlier earlierMember).extend call).congr same
    · exact traced.admits sameConfig reached stepped settled

end Step

/-! ## Recording an accepted event -/

section Record

variable {benchmark state final : Benchmark} {order : IterationOrder} {event : MarketEvent}

/-- On the way to its classification an event only settles bases, its own one only
to seal it. -/
structure Underway (benchmark : Benchmark) (event : MarketEvent) (state : Benchmark) : Prop where
  shrinks : Shrinks benchmark state
  apart : state.Apart
  untouched : event.key.base ∉ state.settledBases →
    state.pending.lookup event.key.base = benchmark.pending.lookup event.key.base

/-- An accepted event ends up classified against its sealed base or stored. -/
theorem recordAccepted_underway (order : IterationOrder) (event : MarketEvent)
    (apart : benchmark.Apart) :
    (Shrinks benchmark (benchmark.recordAccepted order event) ∧
      event.key.base ∉ (benchmark.recordAccepted order event).pending) ∨
    ∃ state, Underway benchmark event state ∧ event.key.base ∉ state.settledBases ∧
      benchmark.recordAccepted order event = state.store order event := by
  refine recordAccepted_induction order benchmark (Underway benchmark event)
    (fun final => (Shrinks benchmark final ∧ event.key.base ∉ final.pending) ∨
      ∃ state, Underway benchmark event state ∧ event.key.base ∉ state.settledBases ∧
        final = state.store order event) ?_ ?_ ?_ ?_ ?_
  · exact ⟨(Shrinks.refl benchmark).bump _ _ _, apart, fun _ => rfl⟩
  · intro state pending _ found _ underway
    refine ⟨underway.shrinks.settle order _ _ _, underway.apart.settle _ _ _, ?_⟩
    intro unsealed
    rw [settle_settledBases order state _ _ _ found] at unsealed
    exact absurd (insertSettledBase_mem order state _ _) unsealed
  · intro state oldest _ absent unsealed present underway
    refine ⟨underway.shrinks.settle order _ _ _, underway.apart.settle _ _ _, fun _ => ?_⟩
    rw [settle_pending, AList.lookup_erase_ne, underway.untouched unsealed]
    intro same
    rw [same] at absent
    exact absent present
  · intro state _ isSealed underway
    refine Or.inl ⟨underway.shrinks.bump _ _ _, ?_⟩
    exact fun isPending => underway.apart _ isPending isSealed
  · intro state _ unsealed _ underway
    exact Or.inr ⟨state, underway, unsealed, rfl⟩

/-- The base of a recorded event, as it is opened, is backed by the calls. -/
theorem Traced.opened (order : IterationOrder) (traced : Traced origin calls benchmark)
    (reached : run step origin calls = some benchmark)
    (underway : Underway benchmark event state)
    (unsealed : event.key.base ∉ state.settledBases) (accepted : Accepted origin.config event) :
    ∃ before during, calls ++ [.record order (.market event)] = before ++ during ∧
      OpenSince origin event.key.base before during ∧
      Received origin.config event.key.base during event ∧
      Evident origin.config event.key.base during (state.openedBase event) := by
  have received : ∀ during, Received origin.config event.key.base
      (during ++ [.record order (.market event)]) event := fun during =>
    ⟨⟨order, List.mem_append_right during (List.mem_singleton.mpr rfl)⟩, rfl, accepted⟩
  have untouched := underway.untouched unsealed
  cases found : benchmark.pending.lookup event.key.base with
  | none =>
      rw [found] at untouched
      refine ⟨calls, [.record order (.market event)], rfl, ⟨?_, List.cons_ne_nil _ _, ?_⟩,
        received [], ?_⟩
      · exact ⟨benchmark, reached, AList.lookup_eq_none.mp found⟩
      · intro front back split frontNonempty backNonempty
        have lengths := congrArg List.length split
        rw [List.length_append, List.length_singleton] at lengths
        have frontPos := List.length_pos_of_ne_nil frontNonempty
        have backPos := List.length_pos_of_ne_nil backNonempty
        omega
      · have unopened : Evident origin.config event.key.base []
            ((state.pending.lookup event.key.base).getD (PendingBase.new event.received)) := by
          rw [untouched]
          exact Evident.fresh event.received
        exact unopened.open order
  | some pending =>
      rw [found] at untouched
      obtain ⟨before, during, split, open_, evident⟩ := traced.pending _ pending found
      refine ⟨before, during ++ [.record order (.market event)], ?_, ?_, received during, ?_⟩
      · rw [split, List.append_assoc]
      · refine open_.extend ?_ _
        rw [← split]
        exact ⟨benchmark, reached, HashMap.mem_of_lookup found⟩
      · refine Evident.open order ?_
        rw [untouched]
        exact evident

/-- Cohorts that an event finds in the rings are admitted, whatever is stored for it. -/
theorem Traced.found (traced : Traced origin calls benchmark)
    (sameConfig : benchmark.config = origin.config)
    (reached : run step origin calls = some benchmark)
    (underway : Underway benchmark event state)
    (unsealed : event.key.base ∉ state.settledBases)
    (stepped : benchmark.step (.record order (.market event)) = some final)
    (opened : ∀ base, base ∈ final.pending → base = event.key.base ∨ base ∈ state.pending)
    {coin : String} {cohort : CommittedCohort} (member : cohort ∈ (state.windows coin).cohorts) :
    AdmittedBy origin (calls ++ [.record order (.market event)]) coin cohort := by
  rcases underway.shrinks.cohorts coin cohort member with
    ⟨earlier, earlierMember, same⟩ |
    ⟨settling, base, pending, committed, found, absent, own, from_, same⟩
  · exact ((traced.cohorts coin earlier earlierMember).extend _).congr same
  · refine traced.admits sameConfig reached stepped
      ⟨settling, base, pending, committed, found, ?_, own, from_, same⟩
    intro present
    rcases opened base present with isOwn | stillPending
    · rw [isOwn] at found absent
      rw [← underway.untouched unsealed] at found
      exact absent (HashMap.mem_of_lookup found)
    · exact absent stillPending

/-- Bases that an event does not concern keep their evidence while it is stored. -/
theorem Traced.others (traced : Traced origin calls benchmark)
    (reached : run step origin calls = some benchmark)
    (underway : Underway benchmark event state) {base : BaseKey} {pending : PendingBase}
    (different : base ≠ event.key.base) (found : state.pending.lookup base = some pending) :
    ∃ before during, calls ++ [.record order (.market event)] = before ++ during ∧
      OpenSince origin base before during ∧ Evident origin.config base during pending := by
  refine traced.keep reached (underway.shrinks.pending base pending found) ?_
  intro otherOrder other same sameBase
  cases same
  exact absurd sameBase.symm different

theorem Traced.store (traced : Traced origin calls benchmark)
    (sameConfig : benchmark.config = origin.config)
    (reached : run step origin calls = some benchmark)
    (underway : Underway benchmark event state)
    (unsealed : event.key.base ∉ state.settledBases) (accepted : Accepted origin.config event)
    (stepped : benchmark.step (.record order (.market event)) =
      some (state.store order event)) :
    Traced origin (calls ++ [.record order (.market event)]) (state.store order event) := by
  obtain ⟨before, during, split, open_, received, evident⟩ :=
    Traced.opened order traced reached underway unsealed accepted
  -- what holds when the event leaves its base pending as `cohort`
  have kept : ∀ (cohort : PendingBase) (final : Benchmark),
      benchmark.step (.record order (.market event)) = some final →
      final.pending = state.pending.insert event.key.base cohort →
      (∀ coin, (final.windows coin).cohorts = (state.windows coin).cohorts) →
      Evident origin.config event.key.base during cohort →
      Traced origin (calls ++ [.record order (.market event)]) final := by
    intro cohort final stepped samePending sameCohorts cohortEvident
    constructor
    · intro base pending found
      rw [samePending] at found
      rcases HashMap.lookup_insert_eq_some.mp found with ⟨own, same⟩ | ⟨different, before⟩
      · rw [own, ← same]
        exact ⟨before, during, split, open_, cohortEvident⟩
      · exact traced.others reached underway different before
    · intro coin cohort member
      rw [sameCohorts] at member
      refine traced.found sameConfig reached underway unsealed stepped ?_ member
      intro base present
      rw [samePending] at present
      exact (AList.mem_insert _).mp present
  have storedEvident := evident.hold (withArrival (state.openedCandidate event) event)
    fun provider arrival arrived => by
      rcases withArrival_arrivals arrived with earlier | fresh
      · exact Or.inl earlier
      · exact Or.inr ⟨received, fresh⟩
  rw [store_eq] at stepped ⊢
  split_ifs at stepped ⊢
  · refine kept _ _ stepped rfl ?_ evident
    intro coin
    unfold Benchmark.markIntegrityLoss
    rw [updateWindow_windows]
    split <;> rfl
  · refine kept _ _ stepped rfl (fun _ => rfl) ?_
    exact evident.hold _ fun _ _ arrived => Or.inl arrived
  · constructor
    · intro base pending found
      rw [settle_pending] at found
      obtain ⟨different, found⟩ := HashMap.lookup_erase_eq_some.mp found
      rcases HashMap.lookup_insert_eq_some.mp found with ⟨own, _⟩ | ⟨_, before⟩
      · exact absurd own different
      · exact traced.others reached underway different before
    · intro coin cohort member
      rcases mem_cohorts_settle order _ member with old | ⟨pending, found, own, committed⟩
      · refine traced.found sameConfig reached underway unsealed stepped ?_ old
        intro base present
        rw [settle_pending] at present
        exact (AList.mem_insert _).mp (AList.mem_erase.mp present).2
      · rw [withPending_pending, AList.lookup_insert] at found
        cases found
        have sameStateConfig := underway.shrinks.config.trans sameConfig
        rw [withPending_config, sameStateConfig] at committed
        obtain ⟨key, sameBase, times, arrival, justified⟩ := committed.justified storedEvident
        refine ⟨key, ?_, times, before, during, [], ?_, ⟨?_, Or.inl ?_⟩, arrival, justified⟩
        · rw [own, ← sameBase]
          rfl
        · rw [List.append_nil, split]
        · rw [sameBase]
          exact open_
        · rw [sameBase, ← split]
          refine ⟨_, run_concat_of_step reached stepped, ?_⟩
          rw [settle_pending]
          exact fun present => (AList.mem_erase.mp present).1 rfl
  · exact kept _ _ stepped rfl (fun _ => rfl) storedEvident

end Record

/-! ## Runs -/

/-- The evidence survives every call. -/
theorem Traced.step {benchmark final : Benchmark} {call : Call}
    (traced : Traced origin calls benchmark) (sameConfig : benchmark.config = origin.config)
    (apart : benchmark.Apart) (reached : run Benchmark.step origin calls = some benchmark)
    (stepped : benchmark.step call = some final) : Traced origin (calls ++ [call]) final := by
  rcases step_shrinks stepped with ⟨shrinks, quiet⟩ | ⟨order, event, same, accepted, recorded⟩
  · refine traced.shrink sameConfig reached stepped shrinks ?_
    intro order event same _ accepted
    rw [← sameConfig] at accepted
    exact quiet order event same accepted
  · subst same
    subst recorded
    rw [sameConfig] at accepted
    rcases recordAccepted_underway order event apart with
      ⟨shrinks, absent⟩ | ⟨state, underway, unsealed, stored⟩
    · refine traced.shrink sameConfig reached stepped shrinks ?_
      intro otherOrder other same present
      cases same
      exact absurd present absent
    · rw [stored] at stepped ⊢
      exact traced.store sameConfig reached underway unsealed accepted stepped

section New

variable {config : BenchmarkConfig} {startedAt startedWallMs : Nat} {calls : List Call}
  {final : Benchmark}

theorem traced_run
    (executed : run Benchmark.step (Benchmark.new config startedAt startedWallMs) calls =
      some final) : Traced (Benchmark.new config startedAt startedWallMs) calls final := by
  refine run_induction (Traced (Benchmark.new config startedAt startedWallMs)) ?_ ?_ executed
  · refine ⟨fun base pending found => ?_, fun coin cohort member => ?_⟩
    · cases found
    · cases member
  · intro calls before call after reached traced stepped
    exact traced.step (run_config reached) (Apart.run reached) reached stepped

/--
Whatever calls are made on a new benchmark, every cohort in a ring is admitted:
every active provider delivered its key in one lifetime of its base, in time.
-/
theorem cohorts_admitted
    (executed : run Benchmark.step (Benchmark.new config startedAt startedWallMs) calls =
      some final)
    {coin : String} {cohort : CommittedCohort} (member : cohort ∈ (final.windows coin).cohorts) :
    AdmittedBy (Benchmark.new config startedAt startedWallMs) calls coin cohort :=
  (traced_run executed).cohorts coin cohort member

end New

/-- The cohort of the sample run is admitted. -/
theorem cohorts_admitted_bookCalls :
    ∃ final cohort, run Benchmark.step (Benchmark.new bookProcess 0 0) bookCalls = some final ∧
      (final.windows "BTC").cohorts = [cohort] ∧
      AdmittedBy (Benchmark.new bookProcess 0 0) bookCalls "BTC" cohort := by
  have sampled : (run Benchmark.step (Benchmark.new bookProcess 0 0) bookCalls).map
      (fun final => (final.windows "BTC").cohorts.length) = some 1 := by decide
  obtain ⟨final, executed, count⟩ := Option.map_eq_some_iff.mp sampled
  obtain ⟨cohort, ring⟩ := List.length_eq_one_iff.mp count
  refine ⟨final, cohort, executed, ring, cohorts_admitted executed ?_⟩
  rw [ring]
  exact List.mem_singleton.mpr rfl

end Benchmark

end MarketBenchmark
