import MarketBenchmark.Peering.Universe

/-!
# What a drain makes of the arrivals

A drain of either leg returns an event for a round whose required arrivals are
all recorded and which no earlier drain decided.  The boundary of a block is
the latest of its arrivals.
-/

namespace MarketBenchmark

open Foundation.HashMaps Foundation.Runs

/-- The number of events of a round. -/
def eventsOf (round : Nat) (events : List MarketEvent) : Nat :=
  events.countP fun event => decide (event.key.content = .peering round)

variable {parseReferenceTimeMs : String → Option Nat}

namespace Assembly

/-! ## What a call makes of one entry -/

section Entries

variable (parseReferenceTimeMs) (assembly : Assembly) (call : AssemblyCall)

/-- The entry of a round after a call. -/
inductive RoundAfter (round : Nat) : Option TrackedRound → Prop where
  | same (apart : ∀ arrival wallMs, call = .trackOrdering round arrival wallMs →
        ¬assembly.Plausible round) : RoundAfter round (assembly.rounds.lookup round)
  | gone : RoundAfter round none
  | ordered (arrival wallMs : Nat) (isCall : call = .trackOrdering round arrival wallMs)
      (isPlausible : assembly.Plausible round) :
      RoundAfter round
        (some { assembly.entry round with
          firstSeen := some ((assembly.entry round).firstSeen.getD arrival)
          ordering := some ((assembly.entry round).ordering.getD (arrival, wallMs)) })
  | named (line : ReferenceLine) (now : Nat) (reference : ReferenceRound)
      (isCall : call = .trackReference line now) (own : line.r = round)
      (accepted : referenceRound parseReferenceTimeMs line = some reference)
      (scored : assembly.scoreFromMs ≤ reference.timeMs) :
      RoundAfter round
        (some { assembly.entry round with
          firstSeen := some ((assembly.entry round).firstSeen.getD now)
          reference := some reference })
  | drained (order : IterationOrder) (now : Nat) (tracked : TrackedRound)
      (isCall : call = .drainReady order now)
      (found : assembly.rounds.lookup round = some tracked) :
      RoundAfter round (some (report (assembly.fate now tracked) tracked))

/-- The entry of a bundle after a call. -/
inductive BundleAfter (sig : Hash32) : Option (Nat × Nat × Nat) → Prop where
  | same (apart : ∀ arrival wallMs now, call = .trackBundle sig arrival wallMs now →
        assembly.bundles.lookup sig ≠ none) : BundleAfter sig (assembly.bundles.lookup sig)
  | gone : BundleAfter sig none
  | recorded (arrival wallMs now : Nat) (isCall : call = .trackBundle sig arrival wallMs now)
      (absent : assembly.bundles.lookup sig = none) : BundleAfter sig (some (arrival, wallMs, now))

theorem roundAfter (round : Nat) :
    RoundAfter parseReferenceTimeMs assembly call round
      ((assembly.next parseReferenceTimeMs call).rounds.lookup round) := by
  cases call with
  | trackOrdering other arrival wallMs =>
      rw [Assembly.next, lookup_trackOrdering assembly round other arrival wallMs]
      split
      · rename_i hit
        obtain ⟨rfl, isPlausible⟩ := hit
        exact .ordered arrival wallMs rfl isPlausible
      · rename_i missed
        refine .same ?_
        rintro _ _ ⟨⟩ isPlausible
        exact missed ⟨rfl, isPlausible⟩
  | trackBundle sigR arrival wallMs now =>
      rw [Assembly.next, rounds_trackBundle]
      refine .same ?_
      rintro _ _ ⟨⟩
  | trackReference line now =>
      rw [Assembly.next]
      by_cases own : line.r = round
      · subst own
        cases accepted : referenceRound parseReferenceTimeMs line with
        | none =>
            rw [trackReference, accepted]
            refine .same ?_
            rintro _ _ ⟨⟩
        | some reference =>
            by_cases early : reference.timeMs < assembly.scoreFromMs
            · rw [trackReference, accepted]
              dsimp only
              rw [if_pos early, AList.lookup_erase]
              exact .gone
            · have scored := Nat.le_of_not_lt early
              rw [lookup_trackReference now accepted scored]
              exact .named line now reference rfl rfl accepted scored
      · rw [lookup_trackReference_of_ne now own]
        refine .same ?_
        rintro _ _ ⟨⟩
  | drainReady order now =>
      rw [Assembly.next, rounds_drainReady, HashMap.lookup_retain, HashMap.lookup_mapValues]
      cases found : assembly.rounds.lookup round with
      | none => exact .gone
      | some tracked =>
          rw [Option.map_some]
          cases kept : Option.filter _ (some (report (assembly.fate now tracked) tracked)) with
          | none => exact .gone
          | some after =>
              cases (Option.filter_eq_some_iff.mp kept).1
              exact .drained order now tracked rfl found

theorem bundleAfter (sig : Hash32) :
    BundleAfter assembly call sig
      ((assembly.next parseReferenceTimeMs call).bundles.lookup sig) := by
  cases call with
  | trackOrdering other arrival wallMs =>
      have kept : (assembly.trackOrdering other arrival wallMs).bundles = assembly.bundles := by
        unfold trackOrdering
        split <;> rfl
      rw [Assembly.next, kept]
      refine .same ?_
      rintro _ _ _ ⟨⟩
  | trackBundle sigR arrival wallMs now =>
      unfold Assembly.next trackBundle
      dsimp only
      cases found : assembly.bundles.lookup sigR with
      | some bundle =>
          refine .same ?_
          rintro _ _ _ ⟨⟩
          rw [found]
          exact Option.some_ne_none bundle
      | none =>
          by_cases own : sig = sigR
          · subst own
            dsimp only
            rw [AList.lookup_insert]
            exact .recorded arrival wallMs now rfl found
          · dsimp only
            rw [AList.lookup_insert_ne own]
            refine .same ?_
            rintro _ _ _ ⟨⟩
            exact absurd rfl own
  | trackReference line now =>
      have kept : (trackReference parseReferenceTimeMs assembly line now).bundles =
          assembly.bundles := by
        unfold trackReference
        split
        · rfl
        · dsimp only
          split <;> rfl
      rw [Assembly.next, kept]
      refine .same ?_
      rintro _ _ _ ⟨⟩
  | drainReady order now =>
      have pruned : (assembly.drainReady order now).1.bundles =
          assembly.bundles.retain fun _ bundle => decide (now - bundle.2.2 < bundleRetain) := rfl
      rw [Assembly.next, pruned, HashMap.lookup_retain]
      cases kept : Option.filter _ (assembly.bundles.lookup sig) with
      | none => exact .gone
      | some bundle =>
          rw [← (Option.filter_eq_some_iff.mp kept).1]
          refine .same ?_
          rintro _ _ _ ⟨⟩

end Entries

/-! ## The boundary of a block -/

/-- The recorded arrival of a bundle, and its wall time. -/
def bundleArrival (bundles : HashMap Hash32 (Nat × Nat × Nat)) (sig : Hash32) :
    Option (Nat × Nat) :=
  (bundles.lookup sig).map fun bundle => (bundle.1, bundle.2.1)

/-- `boundary` is the latest of the ordering's arrival and those of the listed bundles, which are
all recorded. -/
structure LatestArrival (bundles : HashMap Hash32 (Nat × Nat × Nat)) (sigs : List Hash32)
    (ordering boundary : Nat × Nat) : Prop where
  ordering_le : ordering.1 ≤ boundary.1
  bundle_le : ∀ sig ∈ sigs, ∃ arrival, bundleArrival bundles sig = some arrival ∧
    arrival.1 ≤ boundary.1
  attained : boundary = ordering ∨ ∃ sig ∈ sigs, bundleArrival bundles sig = some boundary

variable {bundles : HashMap Hash32 (Nat × Nat × Nat)} {sigs : List Hash32}
  {ordering boundary : Nat × Nat}

theorem latestArrival_of_readyAt (ready : readyAt bundles sigs ordering = some boundary) :
    LatestArrival bundles sigs ordering boundary := by
  induction sigs generalizing ordering with
  | nil =>
      cases ready
      exact ⟨Nat.le_refl _, nofun, Or.inl rfl⟩
  | cons sig rest ih =>
      unfold readyAt at ready
      cases found : bundles.lookup sig with
      | none =>
          rw [found] at ready
          cases ready
      | some bundle =>
          obtain ⟨arrived, wall, seen⟩ := bundle
          rw [found] at ready
          have recorded : bundleArrival bundles sig = some (arrived, wall) := by
            unfold bundleArrival
            rw [found]
            rfl
          obtain ⟨fromLater, fromRest, attained⟩ := ih ready
          by_cases later : ordering.1 < arrived
          · rw [if_pos later] at fromLater attained
            refine ⟨later.le.trans fromLater, ?_, Or.inr ?_⟩
            · exact List.forall_mem_cons.mpr ⟨⟨_, recorded, fromLater⟩, fromRest⟩
            · rcases attained with same | ⟨other, member, isOther⟩
              · exact ⟨sig, List.mem_cons_self, by rw [recorded, same]⟩
              · exact ⟨other, List.mem_cons_of_mem sig member, isOther⟩
          · rw [if_neg later] at fromLater attained
            refine ⟨fromLater, ?_, attained.imp_right ?_⟩
            · exact List.forall_mem_cons.mpr
                ⟨⟨_, recorded, (Nat.le_of_not_lt later).trans fromLater⟩, fromRest⟩
            · rintro ⟨other, member, isOther⟩
              exact ⟨other, List.mem_cons_of_mem sig member, isOther⟩

/-- A round with all of its arrivals has a boundary. -/
theorem exists_readyAt
    (recorded : ∀ sig ∈ sigs, ∃ arrival, bundleArrival bundles sig = some arrival)
    (ordering : Nat × Nat) : ∃ boundary, readyAt bundles sigs ordering = some boundary := by
  induction sigs generalizing ordering with
  | nil => exact ⟨ordering, rfl⟩
  | cons sig rest ih =>
      obtain ⟨⟨arrival, isArrival⟩, restRecorded⟩ := List.forall_mem_cons.mp recorded
      obtain ⟨bundle, found, _⟩ := Option.map_eq_some_iff.mp isArrival
      unfold readyAt
      rw [found]
      exact ih restRecorded _

/-! ## The events of a drain -/

/-- All that a block needs has arrived, and no drain has decided it. -/
structure Completes (assembly : Assembly) (round : Nat) (tracked : TrackedRound)
    (ordering : Nat × Nat) (reference : ReferenceRound) : Prop where
  found : assembly.rounds.lookup round = some tracked
  undecided : tracked.reportedGap = false
  isOrdering : tracked.ordering = some ordering
  isReference : tracked.reference = some reference

/-- The event of a round whose boundary is known. -/
def blockEvent (assembly : Assembly) (round timeMs : Nat) (boundary : Nat × Nat) :
    MarketEvent where
  provider := assembly.provider
  key := { coin := assembly.coin, eventMs := timeMs, content := .peering round }
  received := boundary.1
  receivedWallMs := boundary.2

theorem fate_eq_ready {assembly : Assembly} {now receivedAt wall timeMs : Nat}
    {tracked : TrackedRound} :
    assembly.fate now tracked = .ready receivedAt wall timeMs ↔
      tracked.reportedGap = false ∧ ∃ ordering reference, tracked.ordering = some ordering ∧
        tracked.reference = some reference ∧ reference.timeMs = timeMs ∧
        readyAt assembly.bundles reference.bundleSigs ordering = some (receivedAt, wall) := by
  unfold fate
  cases tracked.reportedGap with
  | true => simp
  | false =>
      cases tracked.ordering with
      | none =>
          cases tracked.reference with
          | none => cases overdue tracked now <;> simp
          | some reference => cases overdue tracked now <;> simp
      | some ordering =>
          cases tracked.reference with
          | none => cases overdue tracked now <;> simp
          | some reference =>
              cases boundary : readyAt assembly.bundles reference.bundleSigs ordering with
              | none => cases overdue tracked now <;> simp [boundary]
              | some boundary =>
                  simp [boundary, Prod.ext_iff]
                  constructor
                  · rintro ⟨rfl, rfl, rfl⟩
                    exact ⟨rfl, rfl, rfl⟩
                  · rintro ⟨rfl, rfl, rfl⟩
                    exact ⟨rfl, rfl, rfl⟩

/-- A drain returns the events of the rounds that it finds complete. -/
theorem mem_emitted_iff {assembly : Assembly} {call : AssemblyCall} {event : MarketEvent} :
    event ∈ assembly.emitted call ↔
      (∃ order now, call = .drainReady order now) ∧
        ∃ round tracked ordering reference boundary,
          assembly.Completes round tracked ordering reference ∧
          readyAt assembly.bundles reference.bundleSigs ordering = some boundary ∧
          event = assembly.blockEvent round reference.timeMs boundary := by
  cases call with
  | drainReady order now =>
      have returned : assembly.emitted (.drainReady order now) = assembly.ready order now := rfl
      rw [returned, ready, List.mem_filterMap]
      constructor
      · rintro ⟨⟨round, decided⟩, member, isEvent⟩
        obtain ⟨entry, stored, same⟩ := List.mem_map.mp member
        obtain ⟨rfl, rfl⟩ := Prod.mk.inj same
        cases decided : assembly.fate now entry.2 with
        | ready receivedAt wall timeMs =>
            rw [decided] at isEvent
            cases isEvent
            obtain ⟨undecided, ordering, reference, isOrdering, isReference, rfl, ready⟩ :=
              fate_eq_ready.mp decided
            have found := HashMap.mem_entries_iff.mp (order.mem_arrange.mp stored)
            exact ⟨⟨order, now, rfl⟩, entry.1, entry.2, ordering, reference, _,
              ⟨found, undecided, isOrdering, isReference⟩, ready, rfl⟩
        | _ =>
            rw [decided] at isEvent
            cases isEvent
      · rintro ⟨_, round, tracked, ordering, reference, boundary,
          ⟨found, undecided, isOrdering, isReference⟩, ready, rfl⟩
        have decided : assembly.fate now tracked =
            .ready boundary.1 boundary.2 reference.timeMs :=
          fate_eq_ready.mpr ⟨undecided, ordering, reference, isOrdering, isReference, rfl, ready⟩
        refine ⟨(round, assembly.fate now tracked), List.mem_map.mpr ⟨⟨round, tracked⟩,
          order.mem_arrange.mpr (HashMap.mem_entries_iff.mpr found), rfl⟩, ?_⟩
        rw [decided]
        rfl
  | _ =>
      refine iff_of_false List.not_mem_nil ?_
      rintro ⟨⟨_, _, impossible⟩, _⟩
      cases impossible

end Assembly

namespace DecodedAssembly

/-! ## What a call makes of one entry -/

section Entries

variable (parseReferenceTimeMs) (assembly : DecodedAssembly) (call : Call)

/-- The entry of a round after a line of it that is tracked. -/
def lineEntry (before : DecodedRound) (line : DecodedLine) (arrival wallMs : Nat) :
    DecodedRound :=
  let seen := { before with firstSeen := some (before.firstSeen.getD arrival) }
  if line.complete = false ∨ before.line.isSome then seen
  else
    match sortedHashes line.signedActionBundles with
    | none => seen
    | some hashes => { seen with line := some (arrival, wallMs, hashes) }

/-- The line is tracked: it is a block of a plausible round. -/
def Tracks (line : DecodedLine) : Prop :=
  (line.kind = "block" ∨ line.kind = "block_patch") ∧ assembly.Plausible line.round

instance (line : DecodedLine) : Decidable (assembly.Tracks line) :=
  inferInstanceAs (Decidable (_ ∧ _))

/-- The entry of a round after a call. -/
inductive RoundAfter (round : Nat) : Option DecodedRound → Prop where
  | same (apart : ∀ line arrival wallMs, call = .trackLine line arrival wallMs →
        line.round = round → ¬assembly.Tracks line) :
      RoundAfter round (assembly.rounds.lookup round)
  | gone : RoundAfter round none
  | lined (line : DecodedLine) (arrival wallMs : Nat)
      (isCall : call = .trackLine line arrival wallMs) (own : line.round = round)
      (tracks : assembly.Tracks line) :
      RoundAfter round (some (lineEntry (assembly.entry round) line arrival wallMs))
  | named (line : ReferenceLine) (now timeMs : Nat) (hashes : List Hash32)
      (isCall : call = .trackReference line now) (own : line.r = round)
      (time : parseReferenceTimeMs line.t = some timeMs)
      (bundles : sortedHashes (line.b.map Prod.fst) = some hashes) :
      RoundAfter round
        (some { assembly.entry round with
          firstSeen := some ((assembly.entry round).firstSeen.getD now)
          reference := some (timeMs, hashes) })
  | drained (order : IterationOrder) (now : Nat) (tracked : DecodedRound)
      (isCall : call = .drainReady order now)
      (found : assembly.rounds.lookup round = some tracked) :
      RoundAfter round
        (some (if fate now tracked = .passed then tracked else { tracked with reported := true }))

theorem trackLine_eq (line : DecodedLine) (arrival wallMs : Nat) :
    assembly.trackLine line arrival wallMs =
      if assembly.Tracks line then
        { assembly with
          rounds := assembly.rounds.insert line.round
            (lineEntry (assembly.entry line.round) line arrival wallMs) }
      else assembly := by
  unfold trackLine
  by_cases other : line.kind ≠ "block" ∧ line.kind ≠ "block_patch"
  · rw [if_pos other, if_neg fun tracks => tracks.1.elim other.1 other.2]
  · rw [if_neg other]
    have isBlock : line.kind = "block" ∨ line.kind = "block_patch" := by
      by_contra neither
      exact other (not_or.mp neither)
    by_cases isPlausible : assembly.Plausible line.round
    · rw [if_neg (not_not.mpr isPlausible), if_pos ⟨isBlock, isPlausible⟩]
      rfl
    · rw [if_pos isPlausible, if_neg fun tracks => isPlausible tracks.2]

theorem roundAfter (round : Nat) :
    RoundAfter parseReferenceTimeMs assembly call round
      ((assembly.next parseReferenceTimeMs call).rounds.lookup round) := by
  cases call with
  | trackLine line arrival wallMs =>
      rw [DecodedAssembly.next, trackLine_eq]
      by_cases tracks : assembly.Tracks line
      · rw [if_pos tracks]
        by_cases own : line.round = round
        · subst own
          rw [AList.lookup_insert]
          exact .lined line arrival wallMs rfl rfl tracks
        · rw [AList.lookup_insert_ne (Ne.symm own)]
          refine .same ?_
          rintro _ _ _ ⟨⟩ same
          exact absurd same own
      · rw [if_neg tracks]
        refine .same ?_
        rintro _ _ _ ⟨⟩ _
        exact tracks
  | trackReference line now =>
      rw [DecodedAssembly.next, trackReference]
      cases time : parseReferenceTimeMs line.t with
      | none => exact .same nofun
      | some timeMs =>
          cases bundles : sortedHashes (line.b.map Prod.fst) with
          | none => exact .same nofun
          | some hashes =>
              by_cases own : line.r = round
              · subst own
                dsimp only
                rw [AList.lookup_insert]
                exact .named line now timeMs hashes rfl rfl time bundles
              · dsimp only
                rw [AList.lookup_insert_ne (Ne.symm own)]
                refine .same ?_
                rintro _ _ _ ⟨⟩
  | drainReady order now =>
      have drained : (assembly.drainReady order now).1.rounds =
          (assembly.rounds.mapValues fun _ tracked =>
            if fate now tracked = .passed then tracked else { tracked with reported := true }).retain
              fun round _ => decide (assembly.maxRefRound - roundRetain ≤ round) := rfl
      rw [DecodedAssembly.next, drained, HashMap.lookup_retain, HashMap.lookup_mapValues]
      cases found : assembly.rounds.lookup round with
      | none => exact .gone
      | some tracked =>
          rw [Option.map_some]
          cases kept : Option.filter _ (some (if fate now tracked = .passed then tracked
              else { tracked with reported := true })) with
          | none => exact .gone
          | some after =>
              cases (Option.filter_eq_some_iff.mp kept).1
              exact .drained order now tracked rfl found

end Entries

/-! ## The events of a drain -/

/-- The line and the reference of a round agree, and no drain has decided it. -/
structure Completes (assembly : DecodedAssembly) (round : Nat) (tracked : DecodedRound)
    (arrived wall timeMs : Nat) (hashes : List Hash32) : Prop where
  found : assembly.rounds.lookup round = some tracked
  undecided : tracked.reported = false
  isLine : tracked.line = some (arrived, wall, hashes)
  isReference : tracked.reference = some (timeMs, hashes)

/-- The event of a round whose line is the chain's block. -/
def blockEvent (assembly : DecodedAssembly) (round timeMs arrived wall : Nat) : MarketEvent where
  provider := .quickNodeVpc
  key := { coin := assembly.coin, eventMs := timeMs, content := .peering round }
  received := arrived
  receivedWallMs := wall

theorem fate_eq_ready {now arrived wall timeMs : Nat} {tracked : DecodedRound} :
    fate now tracked = .ready arrived wall timeMs ↔
      tracked.reported = false ∧ ∃ hashes, tracked.line = some (arrived, wall, hashes) ∧
        tracked.reference = some (timeMs, hashes) := by
  unfold fate
  cases tracked.reported with
  | true => simp
  | false =>
      cases tracked.line with
      | none => cases tracked.reference <;> cases overdue tracked now <;> simp
      | some line =>
          cases tracked.reference with
          | none => cases overdue tracked now <;> simp
          | some reference =>
              obtain ⟨at_, lineWall, hashes⟩ := line
              obtain ⟨time, referenceHashes⟩ := reference
              by_cases same : hashes = referenceHashes
              · simp [same, and_assoc]
              · refine iff_of_false (by simp [same]) ?_
                rintro ⟨_, others, isLine, isReference⟩
                cases isLine
                cases isReference
                exact same rfl

theorem mem_emitted_iff {assembly : DecodedAssembly} {call : Call} {event : MarketEvent} :
    event ∈ assembly.emitted call ↔
      (∃ order now, call = .drainReady order now) ∧
        ∃ round tracked arrived wall timeMs hashes,
          assembly.Completes round tracked arrived wall timeMs hashes ∧
          event = assembly.blockEvent round timeMs arrived wall := by
  cases call with
  | drainReady order now =>
      have returned : assembly.emitted (.drainReady order now) =
          (assembly.fates order now).filterMap assembly.readyEvent := rfl
      rw [returned, List.mem_filterMap]
      constructor
      · rintro ⟨⟨round, decided⟩, member, isEvent⟩
        cases decided with
        | ready arrived wall timeMs =>
            cases isEvent
            obtain ⟨tracked, found, decided⟩ := mem_fates.mp member
            obtain ⟨undecided, hashes, isLine, isReference⟩ := fate_eq_ready.mp decided
            exact ⟨⟨order, now, rfl⟩, round, tracked, arrived, wall, timeMs, hashes,
              ⟨found, undecided, isLine, isReference⟩, rfl⟩
        | _ => cases isEvent
      · rintro ⟨_, round, tracked, arrived, wall, timeMs, hashes,
          ⟨found, undecided, isLine, isReference⟩, rfl⟩
        have decided : fate now tracked = .ready arrived wall timeMs :=
          fate_eq_ready.mpr ⟨undecided, hashes, isLine, isReference⟩
        exact ⟨(round, .ready arrived wall timeMs), mem_fates.mpr ⟨tracked, found, decided⟩, rfl⟩
  | _ =>
      refine iff_of_false List.not_mem_nil ?_
      rintro ⟨⟨_, _, impossible⟩, _⟩
      cases impossible

end DecodedAssembly

end MarketBenchmark
