import MarketBenchmark.Peering.Accounting
import MarketBenchmark.Peering.Decoded

/-!
# The rounds that the legs score

Every leg should score the rounds that the reference feed names with a producer
time after the warm-up, and no others.  The wire leg does.  The decoded leg has
no warm-up and lets rounds that no line named expire, so it does exactly when
none of its drains decides a round from outside.
-/

namespace MarketBenchmark

open Foundation.HashMaps Foundation.Runs

variable (parseReferenceTimeMs : String → Option Nat)

/-- A line names the round with a producer time that is not before `scoreFromMs`. -/
def InUniverse (scoreFromMs : Nat) (lines : List ReferenceLine) (round : Nat) : Prop :=
  ∃ line ∈ lines, line.r = round ∧
    ∃ timeMs, parseReferenceTimeMs line.t = some timeMs ∧ scoreFromMs ≤ timeMs

/-- The reference lines among the calls of the wire leg. -/
def Assembly.AssemblyCall.reference : Assembly.AssemblyCall → Option ReferenceLine
  | .trackReference line _ => some line
  | _ => none

/-- The reference lines among the calls of the decoded leg. -/
def DecodedAssembly.Call.reference : DecodedAssembly.Call → Option ReferenceLine
  | .trackReference line _ => some line
  | _ => none

/-! ## The wire leg -/

namespace Assembly

/-- The run returns the round, as an event or in a gap count. -/
def Reports (assembly : Assembly) (calls : List AssemblyCall) (round : Nat) : Prop :=
  (∃ event ∈ emissions (step parseReferenceTimeMs) emitted assembly calls,
    event.key.content = .peering round) ∨
  round ∈ emissions (step parseReferenceTimeMs) expired assembly calls

/-- Only rounds in scope have a reference. -/
def Named (inScope : Nat → Prop) (assembly : Assembly) : Prop :=
  ∀ round tracked, assembly.rounds.lookup round = some tracked → tracked.reference ≠ none →
    inScope round

variable {parseReferenceTimeMs} {assembly : Assembly} {inScope : Nat → Prop}

theorem Named.trackOrdering (named : assembly.Named inScope) (other arrival wallMs : Nat) :
    (assembly.trackOrdering other arrival wallMs).Named inScope := by
  intro round tracked found hasReference
  rw [lookup_trackOrdering] at found
  split at found
  next own =>
    cases found
    cases before : assembly.rounds.lookup round with
    | none =>
        rw [entry, before] at hasReference
        exact absurd rfl hasReference
    | some tracked =>
        rw [entry, before] at hasReference
        exact named round tracked before hasReference
  · exact named round tracked found hasReference

theorem Named.trackReference (named : assembly.Named inScope) {line : ReferenceLine} (now : Nat)
    (scored : ∀ timeMs, parseReferenceTimeMs line.t = some timeMs →
      assembly.scoreFromMs ≤ timeMs → inScope line.r) :
    (trackReference parseReferenceTimeMs assembly line now).Named inScope := by
  intro round tracked found hasReference
  by_cases own : line.r = round
  · subst own
    cases accepted : referenceRound parseReferenceTimeMs line with
    | none =>
        simp only [Assembly.trackReference, accepted] at found
        exact named line.r tracked found hasReference
    | some reference =>
        by_cases early : reference.timeMs < assembly.scoreFromMs
        · simp [Assembly.trackReference, accepted, early] at found
        · refine scored reference.timeMs ?_ (Nat.not_lt.mp early)
          unfold referenceRound at accepted
          cases time : parseReferenceTimeMs line.t with
          | none => simp [time] at accepted
          | some timeMs =>
              simp only [time, Option.map_eq_some_iff] at accepted
              obtain ⟨sigs, _, rfl⟩ := accepted
              rfl
  · rw [lookup_trackReference_of_ne now own] at found
    exact named round tracked found hasReference

theorem Named.drainReady (named : assembly.Named inScope) (order : IterationOrder) (now : Nat) :
    (assembly.drainReady order now).1.Named inScope := by
  intro round tracked found hasReference
  rw [rounds_drainReady, HashMap.lookup_retain_eq_some, HashMap.lookup_mapValues,
    Option.map_eq_some_iff] at found
  obtain ⟨⟨before, present, rfl⟩, _⟩ := found
  refine named round before present fun none => hasReference ?_
  unfold report
  split
  · exact none
  · exact none

/-- A drain returns only rounds with a reference. -/
theorem Named.reported (named : assembly.Named inScope) {now round : Nat}
    {tracked : TrackedRound} (found : assembly.rounds.lookup round = some tracked)
    (returned : (assembly.fate now tracked).isReady = true ∨
      (assembly.fate now tracked).isGap = true) : inScope round := by
  refine named round tracked found fun none => ?_
  unfold fate at returned
  rw [none] at returned
  split at returned
  · simp [Fate.isReady, Fate.isGap] at returned
  · split at returned
    · simp_all
    · simp_all
    · split at returned
      · simp [Fate.isReady, Fate.isGap] at returned
      · simp [Fate.isReady, Fate.isGap] at returned

theorem mem_ready {order : IterationOrder} {now round : Nat} {event : MarketEvent}
    (returned : event ∈ assembly.ready order now) (named : event.key.content = .peering round) :
    ∃ tracked, assembly.rounds.lookup round = some tracked ∧
      (assembly.fate now tracked).isReady = true := by
  obtain ⟨⟨other, fate⟩, decided, isEvent⟩ := List.mem_filterMap.mp returned
  obtain ⟨entry, member, same⟩ := List.mem_map.mp decided
  obtain ⟨rfl, rfl⟩ := Prod.mk.inj same
  cases fate : assembly.fate now entry.2 with
  | ready receivedAt receivedWallMs timeMs =>
      rw [fate] at isEvent
      cases isEvent
      cases named
      exact ⟨entry.2, HashMap.mem_entries_iff.mp (order.mem_arrange.mp member), by rw [fate]; rfl⟩
  | _ => simp [readyEvent, fate] at isEvent

theorem mem_expiredGaps {order : IterationOrder} {now round : Nat}
    (returned : round ∈ assembly.expiredGaps order now) :
    ∃ tracked, assembly.rounds.lookup round = some tracked ∧
      (assembly.fate now tracked).isGap = true := by
  obtain ⟨⟨other, fate⟩, kept, rfl⟩ := List.mem_map.mp returned
  obtain ⟨decided, isGap⟩ := List.mem_filter.mp kept
  obtain ⟨entry, member, same⟩ := List.mem_map.mp decided
  obtain ⟨rfl, rfl⟩ := Prod.mk.inj same
  exact ⟨entry.2, HashMap.mem_entries_iff.mp (order.mem_arrange.mp member), isGap⟩

/-- What one call returns and keeps, when all its lines of the time after the warm-up are in
scope. -/
theorem Named.next (named : assembly.Named inScope) {call : AssemblyCall}
    (scored : ∀ line timeMs, call.reference = some line →
      parseReferenceTimeMs line.t = some timeMs →
      assembly.scoreFromMs ≤ timeMs → inScope line.r) :
    (assembly.next parseReferenceTimeMs call).Named inScope ∧
      (∀ event ∈ assembly.emitted call, ∀ round, event.key.content = .peering round →
        inScope round) ∧ ∀ round ∈ assembly.expired call, inScope round := by
  have nothing : ∀ {Output : Type} {Holds : Output → Prop}, ∀ output ∈ ([] : List Output),
      Holds output := fun _ member => absurd member List.not_mem_nil
  cases call with
  | trackOrdering other arrival wallMs =>
      exact ⟨named.trackOrdering other arrival wallMs, nothing, nothing⟩
  | trackBundle sigR arrival wallMs now =>
      refine ⟨fun round tracked found => ?_, nothing, nothing⟩
      rw [Assembly.next, rounds_trackBundle] at found
      exact named round tracked found
  | trackReference line now =>
      exact ⟨named.trackReference now fun timeMs => scored line timeMs rfl, nothing, nothing⟩
  | drainReady order now =>
      refine ⟨named.drainReady order now, fun event returned round isRound => ?_,
        fun round returned => ?_⟩
      · obtain ⟨tracked, found, ready⟩ := mem_ready returned isRound
        exact named.reported found (Or.inl ready)
      · obtain ⟨tracked, found, gap⟩ := mem_expiredGaps returned
        exact named.reported found (Or.inr gap)

/-- The wire leg returns only rounds in scope. -/
theorem Named.reports {calls : List AssemblyCall} (named : assembly.Named inScope)
    (scored : ∀ line timeMs, line ∈ calls.filterMap AssemblyCall.reference →
      parseReferenceTimeMs line.t = some timeMs → assembly.scoreFromMs ≤ timeMs → inScope line.r)
    {round : Nat} (reports : Reports parseReferenceTimeMs assembly calls round) :
    inScope round := by
  induction calls generalizing assembly with
  | nil => rcases reports with ⟨event, returned, _⟩ | returned <;> cases returned
  | cons call rest ih =>
      obtain ⟨after, events, gaps⟩ := named.next fun line timeMs isLine =>
        scored line timeMs (List.mem_filterMap.mpr ⟨call, List.mem_cons_self, isLine⟩)
      have later : Reports parseReferenceTimeMs
          (assembly.next parseReferenceTimeMs call) rest round → inScope round := by
        intro reports
        refine ih after (fun line timeMs member time late => ?_) reports
        rw [scoreFromMs_next] at late
        refine scored line timeMs ?_ time late
        obtain ⟨source, within, isLine⟩ := List.mem_filterMap.mp member
        exact List.mem_filterMap.mpr ⟨source, List.mem_cons_of_mem call within, isLine⟩
      have stepped : step parseReferenceTimeMs assembly call =
        some (assembly.next parseReferenceTimeMs call) := rfl
      unfold Reports at reports
      rw [emissions_cons emitted rest stepped, emissions_cons expired rest stepped,
        List.mem_append] at reports
      rcases reports with ⟨event, returned, isRound⟩ | here | after
      · rcases List.mem_append.mp returned with here | after
        · exact events event here round isRound
        · exact later (Or.inl ⟨event, after, isRound⟩)
      · exact gaps round here
      · exact later (Or.inr after)

end Assembly

/-! ## The decoded leg -/

namespace DecodedAssembly

/-- The run returns the round, as an event or in a gap count. -/
def Reports (assembly : DecodedAssembly) (calls : List Call) (round : Nat) : Prop :=
  (∃ event ∈ emissions (step parseReferenceTimeMs) emitted assembly calls,
    event.key.content = .peering round) ∨
  round ∈ emissions (step parseReferenceTimeMs) expired assembly calls

/-- When the call is a drain, the open rounds out of scope are not overdue and do not have both a
line and a reference. -/
def Spares (inScope : Nat → Prop) (assembly : DecodedAssembly) (call : Call) : Prop :=
  ∀ order now, call = .drainReady order now → ∀ round tracked,
    assembly.rounds.lookup round = some tracked → tracked.reported = false → ¬inScope round →
      overdue tracked now = false ∧ (tracked.line = none ∨ tracked.reference = none)

variable {parseReferenceTimeMs} {assembly : DecodedAssembly} {inScope : Nat → Prop}

/-- What a drain decides about a round. -/
theorem fate_ne_passed {now : Nat} {tracked : DecodedRound} :
    fate now tracked ≠ .passed ↔ tracked.reported = false ∧
      (overdue tracked now = true ∨ tracked.line ≠ none ∧ tracked.reference ≠ none) := by
  unfold fate
  cases tracked.reported with
  | true => simp
  | false =>
      cases tracked.line with
      | none => cases tracked.reference <;> simp
      | some line =>
          cases tracked.reference with
          | none => simp
          | some reference =>
              have decided : (if line.2.2 ≠ reference.2 then Fate.mismatched
                  else .ready line.1 line.2.1 reference.1) ≠ .passed := by
                split <;> exact nofun
              simpa using decided

theorem mem_fates {order : IterationOrder} {now round : Nat} {decided : Fate} :
    (round, decided) ∈ assembly.fates order now ↔
      ∃ tracked, assembly.rounds.lookup round = some tracked ∧ fate now tracked = decided := by
  unfold fates
  rw [List.mem_map]
  constructor
  · rintro ⟨entry, member, same⟩
    obtain ⟨rfl, rfl⟩ := Prod.mk.inj same
    exact ⟨entry.2, HashMap.mem_entries_iff.mp (order.mem_arrange.mp member), rfl⟩
  · rintro ⟨tracked, found, rfl⟩
    exact ⟨⟨round, tracked⟩, order.mem_arrange.mpr (HashMap.mem_entries_iff.mpr found), rfl⟩

/-- A drain returns exactly the rounds that it decides. -/
theorem returned_iff {order : IterationOrder} {now round : Nat} :
    ((∃ event ∈ assembly.emitted (.drainReady order now), event.key.content = .peering round) ∨
      round ∈ assembly.expired (.drainReady order now)) ↔
      ∃ tracked, assembly.rounds.lookup round = some tracked ∧ fate now tracked ≠ .passed := by
  constructor
  · rintro (⟨event, returned, isRound⟩ | returned)
    · obtain ⟨⟨other, decided⟩, member, isEvent⟩ := List.mem_filterMap.mp returned
      cases decided with
      | ready arrived wall timeMs =>
          cases isEvent
          cases isRound
          obtain ⟨tracked, found, same⟩ := mem_fates.mp member
          exact ⟨tracked, found, by rw [same]; exact nofun⟩
      | _ => cases isEvent
    · obtain ⟨⟨other, decided⟩, kept, rfl⟩ := List.mem_map.mp returned
      obtain ⟨member, isGap⟩ := List.mem_filter.mp kept
      obtain ⟨tracked, found, rfl⟩ := mem_fates.mp member
      refine ⟨tracked, found, fun passed => ?_⟩
      rw [passed] at isGap
      cases isGap
  · rintro ⟨tracked, found, decides⟩
    have member : (round, fate now tracked) ∈ assembly.fates order now :=
      mem_fates.mpr ⟨tracked, found, rfl⟩
    cases decided : fate now tracked with
    | passed => exact absurd decided decides
    | ready arrived wall timeMs =>
        rw [decided] at member
        exact Or.inl ⟨_, List.mem_filterMap.mpr ⟨_, member, rfl⟩, rfl⟩
    | mismatched =>
        rw [decided] at member
        exact Or.inr (List.mem_map.mpr ⟨_, List.mem_filter.mpr ⟨member, rfl⟩, rfl⟩)
    | expired =>
        rw [decided] at member
        exact Or.inr (List.mem_map.mpr ⟨_, List.mem_filter.mpr ⟨member, rfl⟩, rfl⟩)

/-- A call returns rounds in scope only exactly when it spares the others. -/
theorem spares_iff {call : Call} :
    assembly.Spares inScope call ↔ ∀ round,
      ((∃ event ∈ assembly.emitted call, event.key.content = .peering round) ∨
        round ∈ assembly.expired call) → inScope round := by
  cases call with
  | drainReady order now =>
      constructor
      · intro spares round returned
        obtain ⟨tracked, found, decides⟩ := returned_iff.mp returned
        obtain ⟨notReported, either⟩ := fate_ne_passed.mp decides
        by_contra outside
        obtain ⟨early, missing⟩ := spares order now rfl round tracked found notReported outside
        rcases either with late | ⟨hasLine, hasReference⟩
        · rw [early] at late
          cases late
        · exact missing.elim hasLine hasReference
      · rintro returns order now ⟨⟩ round tracked found notReported outside
        by_contra decides
        refine outside (returns round (returned_iff.mpr ⟨tracked, found, ?_⟩))
        refine fate_ne_passed.mpr ⟨notReported, ?_⟩
        by_contra neither
        simp only [not_or, not_and_or, not_not, Bool.not_eq_true] at neither
        exact decides neither
  | trackLine line arrival wallMs => simp [Spares, emitted, expired]
  | trackReference line now => simp [Spares, emitted, expired]

/-- The decoded leg returns rounds in scope only exactly when all its drains spare the others. -/
theorem reports_iff {calls : List Call} :
    (∀ round, Reports parseReferenceTimeMs assembly calls round → inScope round) ↔
      StepsMeet (step parseReferenceTimeMs) (Spares inScope) assembly calls := by
  induction calls generalizing assembly with
  | nil =>
      refine ⟨fun _ => trivial, fun _ round reports => ?_⟩
      rcases reports with ⟨event, returned, _⟩ | returned <;> cases returned
  | cons call rest ih =>
      have stepped : step parseReferenceTimeMs assembly call =
        some (assembly.next parseReferenceTimeMs call) := rfl
      have split : ∀ round, Reports parseReferenceTimeMs assembly (call :: rest) round ↔
          ((∃ event ∈ assembly.emitted call, event.key.content = .peering round) ∨
            round ∈ assembly.expired call) ∨
          Reports parseReferenceTimeMs (assembly.next parseReferenceTimeMs call) rest round := by
        intro round
        unfold Reports
        rw [emissions_cons emitted rest stepped, emissions_cons expired rest stepped]
        simp only [List.mem_append, or_and_right, exists_or]
        exact or_or_or_comm
      have later : StepsMeet (step parseReferenceTimeMs) (Spares inScope) assembly (call :: rest) ↔
          assembly.Spares inScope call ∧ StepsMeet (step parseReferenceTimeMs) (Spares inScope)
            (assembly.next parseReferenceTimeMs call) rest := by
        constructor
        · rintro ⟨here, after⟩
          exact ⟨here, after _ stepped⟩
        · rintro ⟨here, after⟩
          refine ⟨here, fun next reached => ?_⟩
          cases Option.some.inj (stepped.symm.trans reached)
          exact after
      rw [later, spares_iff, ← ih]
      simp only [split, or_imp, forall_and]

end DecodedAssembly

/-! ## Both legs -/

section Legs

variable {parseReferenceTimeMs} {lines : List ReferenceLine}

/--
Two legs that start at one moment return rounds of the universe only, which the
reference lines make, exactly when every drain of the decoded leg spares the
rounds outside.
-/
theorem legs_in_universe_iff (provider : Provider) (coin : String) (nowMs : Nat)
    {wire : List Assembly.AssemblyCall} {decoded : List DecodedAssembly.Call}
    (wireLines : (wire.filterMap Assembly.AssemblyCall.reference).Perm lines) :
    (∀ round,
      Assembly.Reports parseReferenceTimeMs (Assembly.new provider coin nowMs) wire round ∨
        DecodedAssembly.Reports parseReferenceTimeMs (DecodedAssembly.new coin) decoded round →
      InUniverse parseReferenceTimeMs (nowMs + asMillis subscriptionWarmup) lines round) ↔
    StepsMeet (DecodedAssembly.step parseReferenceTimeMs)
      (DecodedAssembly.Spares
        (InUniverse parseReferenceTimeMs (nowMs + asMillis subscriptionWarmup) lines))
      (DecodedAssembly.new coin) decoded := by
  rw [← DecodedAssembly.reports_iff]
  constructor
  · exact fun both round reports => both round (Or.inr reports)
  · rintro own round (reports | reports)
    · refine Assembly.Named.reports ?_ (fun line timeMs member time late => ?_) reports
      · intro other tracked found
        simp [Assembly.new] at found
      · exact ⟨line, wireLines.subset member, rfl, timeMs, time, late⟩
    · exact own round reports

def sampleLine (round : Nat) (time : String) : ReferenceLine where
  r := round
  t := time
  b := []

def sampleBlock (round : Nat) : DecodedLine where
  kind := "block"
  round := round
  complete := true
  signedActionBundles := []

/-- The times of two lines, at the start of the legs and a minute and a half later. -/
def sampleTimes (text : String) : Option Nat :=
  if text = "2026-09-21T14:13:20.000" then some 1790000000000
  else if text = "2026-09-21T14:14:50.000" then some 1790000090000
  else none

/-- A line of a block arrives after the line of the reference feed. -/
def sampleDecoded (line : ReferenceLine) (block now : Nat) : List DecodedAssembly.Call :=
  [.trackReference line 0, .trackLine (sampleBlock block) 1 1,
    .drainReady IterationOrder.stored now]

theorem sampleLate_inUniverse :
    InUniverse sampleTimes (1790000000000 + asMillis subscriptionWarmup)
      [sampleLine 10 "2026-09-21T14:14:50.000"] 10 :=
  ⟨_, List.mem_cons_self, rfl, 1790000090000, by decide, by decide⟩

theorem legs_in_universe_sample :
    DecodedAssembly.Reports sampleTimes (DecodedAssembly.new "BLOCKS")
        (sampleDecoded (sampleLine 10 "2026-09-21T14:14:50.000") 10 2) 10 ∧
      ∀ round,
        Assembly.Reports sampleTimes (Assembly.new .quickNodePeeringTcp "BLOCKS" 1790000000000)
            [.trackReference (sampleLine 10 "2026-09-21T14:14:50.000") 0] round ∨
          DecodedAssembly.Reports sampleTimes (DecodedAssembly.new "BLOCKS")
            (sampleDecoded (sampleLine 10 "2026-09-21T14:14:50.000") 10 2) round →
        InUniverse sampleTimes (1790000000000 + asMillis subscriptionWarmup)
          [sampleLine 10 "2026-09-21T14:14:50.000"] round := by
  refine ⟨Or.inl ?_, (legs_in_universe_iff .quickNodePeeringTcp "BLOCKS" 1790000000000
    (List.Perm.refl _)).mpr ?_⟩
  · decide +kernel
  · refine ⟨nofun, fun first reached => ⟨nofun, fun second reachedSecond =>
      ⟨?_, fun _ _ => trivial⟩⟩⟩
    cases reached
    cases reachedSecond
    intro order now isDrain round tracked found _ outside
    have keys : (DecodedAssembly.next sampleTimes (DecodedAssembly.next sampleTimes
        (DecodedAssembly.new "BLOCKS")
        (.trackReference (sampleLine 10 "2026-09-21T14:14:50.000") 0))
        (.trackLine (sampleBlock 10) 1 1)).rounds.keys = [10] := by decide +kernel
    have member : round ∈ [10] := by
      rw [← keys]
      exact HashMap.mem_of_lookup found
    rw [List.mem_singleton.mp member] at outside
    exact absurd sampleLate_inUniverse outside

/-- A round of the warm-up is a sample of the decoded leg, and a round that no line named is a gap
of it. -/
theorem outside_rounds_reported :
    (¬∀ round,
      Assembly.Reports sampleTimes (Assembly.new .quickNodePeeringTcp "BLOCKS" 1790000000000)
          [.trackReference (sampleLine 10 "2026-09-21T14:13:20.000") 0] round ∨
        DecodedAssembly.Reports sampleTimes (DecodedAssembly.new "BLOCKS")
          (sampleDecoded (sampleLine 10 "2026-09-21T14:13:20.000") 10 2) round →
      InUniverse sampleTimes (1790000000000 + asMillis subscriptionWarmup)
        [sampleLine 10 "2026-09-21T14:13:20.000"] round) ∧
    ¬∀ round,
      Assembly.Reports sampleTimes (Assembly.new .quickNodePeeringTcp "BLOCKS" 1790000000000)
          [.trackReference (sampleLine 10 "2026-09-21T14:14:50.000") 0] round ∨
        DecodedAssembly.Reports sampleTimes (DecodedAssembly.new "BLOCKS")
          (sampleDecoded (sampleLine 10 "2026-09-21T14:14:50.000") 11 (fromSecs 6)) round →
      InUniverse sampleTimes (1790000000000 + asMillis subscriptionWarmup)
        [sampleLine 10 "2026-09-21T14:14:50.000"] round := by
  constructor
  · intro both
    obtain ⟨line, member, _, timeMs, time, late⟩ :=
      both 10 (Or.inr (Or.inl (by decide +kernel)))
    rw [List.mem_singleton.mp member] at time
    have early : timeMs = 1790000000000 := (Option.some.inj time).symm
    rw [early] at late
    exact absurd late (by decide)
  · intro both
    obtain ⟨line, member, named, _⟩ := both 11 (Or.inr (Or.inr (by decide +kernel)))
    rw [List.mem_singleton.mp member] at named
    exact absurd named (by decide)

end Legs

end MarketBenchmark
