import MarketBenchmark.Peering.Assembly
import MarketBenchmark.Foundation.Runs

/-!
# Accounting of peering rounds

A round is accounted once: in one ready event or by one unit of a gap count.
The flag that a drain sets on a round is shared by completion, by the counted
gaps and by the silent expiry of a round that the reference feed has not named,
so a reference line that comes after a silent expiry finds its round closed and
the round is never accounted.  This is the only way to lose a round.
-/

namespace MarketBenchmark

open Foundation.HashMaps
open Foundation.Runs

namespace Assembly

/-! ## Calls -/

/-- The calls on an assembly, with the instants at which they are made. -/
inductive AssemblyCall where
  | trackOrdering (round arrival wallMs : Nat)
  | trackBundle (sigR : Hash32) (arrival wallMs now : Nat)
  | trackReference (line : ReferenceLine) (now : Nat)
  | drainReady (order : IterationOrder) (now : Nat)

def AssemblyCall.time : AssemblyCall → Nat
  | .trackOrdering _ arrival _ => arrival
  | .trackBundle _ _ _ now => now
  | .trackReference _ now => now
  | .drainReady _ now => now

variable (parseReferenceTimeMs : String → Option Nat)

def next (assembly : Assembly) : AssemblyCall → Assembly
  | .trackOrdering round arrival wallMs => assembly.trackOrdering round arrival wallMs
  | .trackBundle sigR arrival wallMs now => assembly.trackBundle sigR arrival wallMs now
  | .trackReference line now => trackReference parseReferenceTimeMs assembly line now
  | .drainReady order now => (assembly.drainReady order now).1

def step (assembly : Assembly) (call : AssemblyCall) : Option Assembly :=
  some (assembly.next parseReferenceTimeMs call)

/-- The events that a call returns. -/
def emitted (assembly : Assembly) : AssemblyCall → List MarketEvent
  | .drainReady order now => (assembly.drainReady order now).2.1
  | _ => []

/-- The rounds in the gap count that a call returns. -/
def expired (assembly : Assembly) : AssemblyCall → List Nat
  | .drainReady order now => assembly.expiredGaps order now
  | _ => []

/-- How often a run returns the round, as an event or in a gap count. -/
def accounted (assembly : Assembly) (round : Nat) (calls : List AssemblyCall) : Nat :=
  (emissions (step parseReferenceTimeMs) emitted assembly calls).countP
    (fun event => decide (event.key.content = .peering round)) +
  (emissions (step parseReferenceTimeMs) expired assembly calls).count round

/-! ## What a drain returns of one round -/

section Drain

variable (order : IterationOrder) (assembly : Assembly) (round now : Nat)

def Fate.isReady : Fate → Bool
  | .ready .. => true
  | _ => false

/-- How often a fate accounts its round. -/
def Fate.units (fate : Fate) : Nat :=
  fate.isReady.toNat + fate.isGap.toNat

theorem countP_fates (test : Fate → Bool) :
    (assembly.fates order now).countP
        (fun entry => decide (entry.1 = round) && test entry.2) =
      if (assembly.rounds.lookup round).any fun tracked => test (assembly.fate now tracked)
      then 1 else 0 := by
  unfold fates
  rw [List.countP_map, (order.perm assembly.rounds.entries).countP_eq]
  exact HashMap.countP_key assembly.rounds round fun tracked => test (assembly.fate now tracked)

theorem countP_ready :
    (assembly.ready order now).countP
        (fun event => decide (event.key.content = .peering round)) =
      if (assembly.rounds.lookup round).any fun tracked => (assembly.fate now tracked).isReady
      then 1 else 0 := by
  rw [← countP_fates order assembly round now Fate.isReady]
  unfold ready
  rw [List.countP_filterMap]
  congr 1
  funext ⟨other, fate⟩
  cases fate <;> simp [readyEvent, Fate.isReady]

theorem count_expiredGaps :
    (assembly.expiredGaps order now).count round =
      if (assembly.rounds.lookup round).any fun tracked => (assembly.fate now tracked).isGap
      then 1 else 0 := by
  rw [← countP_fates order assembly round now Fate.isGap]
  unfold expiredGaps
  rw [List.count_eq_countP, List.countP_map, List.countP_filter]
  rfl

/-- A drain returns a round as often as its fate says. -/
theorem drain_units :
    (assembly.ready order now).countP
        (fun event => decide (event.key.content = .peering round)) +
      (assembly.expiredGaps order now).count round =
      ((assembly.rounds.lookup round).map fun tracked =>
        (assembly.fate now tracked).units).getD 0 := by
  rw [countP_ready, count_expiredGaps]
  cases assembly.rounds.lookup round with
  | none => rfl
  | some tracked =>
      unfold Fate.units
      simp only [Option.any_some, Option.map_some, Option.getD_some, Bool.toNat,
        Bool.cond_eq_ite]

end Drain

/-! ## What a call does to one round -/

section Next

variable {parseReferenceTimeMs} {assembly : Assembly} {round : Nat}

theorem lookup_trackOrdering (assembly : Assembly) (round other arrival wallMs : Nat) :
    (assembly.trackOrdering other arrival wallMs).rounds.lookup round =
      if round = other ∧ assembly.Plausible other then
        some { assembly.entry round with
          firstSeen := some ((assembly.entry round).firstSeen.getD arrival)
          ordering := some ((assembly.entry round).ordering.getD (arrival, wallMs)) }
      else assembly.rounds.lookup round := by
  unfold trackOrdering
  by_cases isPlausible : assembly.Plausible other
  · rw [if_neg (not_not.mpr isPlausible)]
    by_cases same : round = other
    · subst same
      rw [if_pos ⟨rfl, isPlausible⟩]
      exact AList.lookup_insert _
    · rw [if_neg fun both => same both.1]
      exact AList.lookup_insert_ne same
  · rw [if_pos isPlausible, if_neg fun both => isPlausible both.2]

theorem rounds_trackBundle (sigR : Hash32) (arrival wallMs now : Nat) :
    (assembly.trackBundle sigR arrival wallMs now).rounds = assembly.rounds := by
  unfold trackBundle
  split <;> rfl

/-- A line of another round does not touch the round. -/
theorem lookup_trackReference_of_ne {line : ReferenceLine} (now : Nat) (other : line.r ≠ round) :
    (trackReference parseReferenceTimeMs assembly line now).rounds.lookup round =
      assembly.rounds.lookup round := by
  unfold trackReference
  split
  · rfl
  · dsimp only
    split
    · exact AList.lookup_erase_ne other.symm
    · exact AList.lookup_insert_ne other.symm

/-- An accepted line names its round. -/
theorem lookup_trackReference {line : ReferenceLine} {reference : ReferenceRound} (now : Nat)
    (accepted : referenceRound parseReferenceTimeMs line = some reference)
    (scored : assembly.scoreFromMs ≤ reference.timeMs) :
    (trackReference parseReferenceTimeMs assembly line now).rounds.lookup line.r =
      some { assembly.entry line.r with
        firstSeen := some ((assembly.entry line.r).firstSeen.getD now)
        reference := some reference } := by
  unfold trackReference
  rw [accepted]
  dsimp only
  rw [if_neg (Nat.not_lt_of_le scored)]
  exact AList.lookup_insert _

theorem rounds_drainReady (order : IterationOrder) (now : Nat) :
    (assembly.drainReady order now).1.rounds =
      (assembly.rounds.mapValues fun _ tracked =>
        report (assembly.fate now tracked) tracked).retain fun other _ =>
          decide (assembly.maxRefRound - roundRetain ≤ other) := rfl

theorem lookup_drainReady (order : IterationOrder) (now : Nat)
    (retained : assembly.maxRefRound ≤ round + roundRetain) :
    (assembly.drainReady order now).1.rounds.lookup round =
      (assembly.rounds.lookup round).map fun tracked =>
        report (assembly.fate now tracked) tracked := by
  have floor : assembly.maxRefRound - roundRetain ≤ round := by omega
  rw [rounds_drainReady, HashMap.lookup_retain_of_key, HashMap.lookup_mapValues]
  exact fun _ => decide_eq_true floor

theorem maxRefRound_next (call : AssemblyCall) :
    assembly.maxRefRound ≤ (assembly.next parseReferenceTimeMs call).maxRefRound := by
  cases call with
  | trackOrdering other arrival wallMs =>
      unfold next trackOrdering
      dsimp only
      split <;> exact Nat.le_refl _
  | trackBundle sigR arrival wallMs now =>
      unfold next trackBundle
      dsimp only
      split <;> exact Nat.le_refl _
  | trackReference line now =>
      unfold next trackReference
      dsimp only
      split
      · exact Nat.le_refl _
      · split <;> exact Nat.le_max_left _ _
  | drainReady order now => exact Nat.le_refl _

theorem scoreFromMs_next (call : AssemblyCall) :
    (assembly.next parseReferenceTimeMs call).scoreFromMs = assembly.scoreFromMs := by
  cases call with
  | trackOrdering other arrival wallMs =>
      unfold next trackOrdering
      dsimp only
      split <;> rfl
  | trackBundle sigR arrival wallMs now =>
      unfold next trackBundle
      dsimp only
      split <;> rfl
  | trackReference line now =>
      unfold next trackReference
      dsimp only
      split
      · rfl
      · split <;> rfl
  | drainReady order now => rfl

/-- The newest named round never moves back. -/
theorem maxRefRound_run {call : AssemblyCall} {rest : List AssemblyCall} {final : Assembly}
    (executed : run (step parseReferenceTimeMs) assembly (call :: rest) = some final) :
    (assembly.next parseReferenceTimeMs call).maxRefRound ≤ final.maxRefRound :=
  run_related (fun before after : Assembly => before.maxRefRound ≤ after.maxRefRound)
    (fun _ => Nat.le_refl _) (fun _ _ _ => Nat.le_trans)
    (fun before call after stepped => by
      cases stepped
      exact maxRefRound_next call)
    (show run (step parseReferenceTimeMs) _ rest = some final from executed)

theorem scoreFromMs_run {calls : List AssemblyCall} {final : Assembly}
    (executed : run (step parseReferenceTimeMs) assembly calls = some final) :
    final.scoreFromMs = assembly.scoreFromMs :=
  run_preserves (fun state : Assembly => state.scoreFromMs = assembly.scoreFromMs)
    (fun before call after same stepped => by
      cases stepped
      exact (scoreFromMs_next call).trans same) rfl executed

/-- How often a call returns the round. -/
def units (assembly : Assembly) (round : Nat) (call : AssemblyCall) : Nat :=
  (assembly.emitted call).countP (fun event => decide (event.key.content = .peering round)) +
    (assembly.expired call).count round

theorem accounted_cons (call : AssemblyCall) (rest : List AssemblyCall) :
    accounted parseReferenceTimeMs assembly round (call :: rest) =
      assembly.units round call +
        accounted parseReferenceTimeMs (assembly.next parseReferenceTimeMs call) round rest := by
  unfold accounted units
  rw [emissions_cons emitted rest rfl, emissions_cons expired rest rfl, List.countP_append,
    List.count_append]
  omega

theorem accounted_append {middle : Assembly} {first second : List AssemblyCall}
    (reached : run (step parseReferenceTimeMs) assembly first = some middle) :
    accounted parseReferenceTimeMs assembly round (first ++ second) =
      accounted parseReferenceTimeMs assembly round first +
        accounted parseReferenceTimeMs middle round second := by
  induction first generalizing assembly with
  | nil =>
      cases reached
      exact (Nat.zero_add _).symm
  | cons call rest ih =>
      rw [List.cons_append, accounted_cons, accounted_cons, ih reached]
      omega

theorem units_drainReady (assembly : Assembly) (round : Nat) (order : IterationOrder)
    (now : Nat) :
    assembly.units round (.drainReady order now) =
      ((assembly.rounds.lookup round).map fun tracked =>
        (assembly.fate now tracked).units).getD 0 :=
  drain_units order assembly round now

end Next

/-! ## The life of a named round -/

section Life

variable {parseReferenceTimeMs} {assembly : Assembly} {round : Nat}

/-- The round was reported, or silently given up. -/
def Closed (assembly : Assembly) (round : Nat) : Prop :=
  ∃ tracked, assembly.rounds.lookup round = some tracked ∧ tracked.reportedGap = true

/-- The round was named and is not reported yet; it was first seen by `named`. -/
def Waiting (assembly : Assembly) (round named : Nat) : Prop :=
  ∃ tracked seen, assembly.rounds.lookup round = some tracked ∧ tracked.reference.isSome = true ∧
    tracked.firstSeen = some seen ∧ seen ≤ named ∧ tracked.reportedGap = false

/-- The call is not a line of the round. -/
def AssemblyCall.Apart (round : Nat) (call : AssemblyCall) : Prop :=
  ∀ line now, call = .trackReference line now → line.r ≠ round

theorem fate_of_reported {tracked : TrackedRound} (now : Nat)
    (reported : tracked.reportedGap = true) : assembly.fate now tracked = .passed :=
  if_pos reported

/-- A closed round stays closed and is returned by no call. -/
theorem Closed.next (closed : assembly.Closed round) {call : AssemblyCall}
    (apart : call.Apart round)
    (retained : (assembly.next parseReferenceTimeMs call).maxRefRound ≤ round + roundRetain) :
    (assembly.next parseReferenceTimeMs call).Closed round ∧ assembly.units round call = 0 := by
  obtain ⟨tracked, found, reported⟩ := closed
  cases call with
  | trackOrdering other arrival wallMs =>
      refine ⟨?_, rfl⟩
      unfold Closed
      change ∃ tracked, (assembly.trackOrdering other arrival wallMs).rounds.lookup round = _ ∧ _
      rw [lookup_trackOrdering]
      split
      · refine ⟨_, rfl, ?_⟩
        unfold entry
        rw [found]
        exact reported
      · exact ⟨tracked, found, reported⟩
  | trackBundle sigR arrival wallMs now =>
      refine ⟨⟨tracked, ?_, reported⟩, rfl⟩
      exact (congrArg (AList.lookup round) (rounds_trackBundle sigR arrival wallMs now)).trans found
  | trackReference line now =>
      exact ⟨⟨tracked, (lookup_trackReference_of_ne now (apart line now rfl)).trans found,
        reported⟩, rfl⟩
  | drainReady order now =>
      have passed : assembly.fate now tracked = .passed := fate_of_reported now reported
      have kept : assembly.maxRefRound ≤ round + roundRetain := retained
      constructor
      · refine ⟨tracked, ?_, reported⟩
        have after := lookup_drainReady order now kept
        rw [found, Option.map_some, passed] at after
        exact after
      · rw [units_drainReady, found, Option.map_some, passed]
        rfl

/-- A named round that is not reported is left alone only while it has time; otherwise
its fate accounts it once. -/
theorem fate_of_named (assembly : Assembly) {tracked : TrackedRound} (now : Nat)
    (named : tracked.reference.isSome = true) (open_ : tracked.reportedGap = false) :
    (assembly.fate now tracked = .passed ∧ overdue tracked now = false) ∨
      (assembly.fate now tracked ≠ .passed ∧ (assembly.fate now tracked).units = 1) := by
  obtain ⟨reference, isReference⟩ := Option.isSome_iff_exists.mp named
  unfold fate
  rw [open_, isReference]
  cases isOrdering : tracked.ordering with
  | none =>
      cases late : overdue tracked now with
      | false => exact Or.inl ⟨rfl, rfl⟩
      | true => exact Or.inr ⟨nofun, rfl⟩
  | some ordering =>
      simp only [Bool.false_eq_true, if_false]
      cases arrived : readyAt assembly.bundles reference.bundleSigs ordering with
      | some ready => exact Or.inr ⟨nofun, rfl⟩
      | none =>
          cases late : overdue tracked now with
          | false => exact Or.inl ⟨rfl, rfl⟩
          | true => exact Or.inr ⟨nofun, rfl⟩

theorem not_overdue {tracked : TrackedRound} {seen now : Nat}
    (firstSeen : tracked.firstSeen = some seen) (early : overdue tracked now = false) :
    now - seen ≤ incompleteDeadline := by
  unfold overdue at early
  rw [firstSeen] at early
  exact Nat.le_of_not_lt (of_decide_eq_false early)

/-- A waiting round keeps waiting, and no drain past its deadline leaves it so, or it is
closed by the drain that returns it once. -/
theorem Waiting.next {named : Nat} (waiting : assembly.Waiting round named)
    {call : AssemblyCall} (apart : call.Apart round)
    (retained : (assembly.next parseReferenceTimeMs call).maxRefRound ≤ round + roundRetain) :
    ((assembly.next parseReferenceTimeMs call).Waiting round named ∧
      assembly.units round call = 0 ∧
      ∀ order now, call = .drainReady order now → now - named ≤ incompleteDeadline) ∨
    ((assembly.next parseReferenceTimeMs call).Closed round ∧ assembly.units round call = 1) := by
  obtain ⟨tracked, seen, found, isNamed, firstSeen, seenBefore, open_⟩ := waiting
  cases call with
  | trackOrdering other arrival wallMs =>
      refine Or.inl ⟨?_, rfl, nofun⟩
      unfold Waiting
      change ∃ tracked seen,
        (assembly.trackOrdering other arrival wallMs).rounds.lookup round = _ ∧ _
      rw [lookup_trackOrdering]
      have same : assembly.entry round = tracked := by
        unfold entry
        rw [found]
        rfl
      split
      · refine ⟨_, seen, rfl, ?_, ?_, seenBefore, ?_⟩
        · rw [same]
          exact isNamed
        · rw [same, firstSeen]
          rfl
        · rw [same]
          exact open_
      · exact ⟨tracked, seen, found, isNamed, firstSeen, seenBefore, open_⟩
  | trackBundle sigR arrival wallMs now =>
      refine Or.inl ⟨⟨tracked, seen, ?_, isNamed, firstSeen, seenBefore, open_⟩, rfl, nofun⟩
      exact (congrArg (AList.lookup round) (rounds_trackBundle sigR arrival wallMs now)).trans found
  | trackReference line now =>
      refine Or.inl ⟨⟨tracked, seen, ?_, isNamed, firstSeen, seenBefore, open_⟩, rfl, nofun⟩
      exact (lookup_trackReference_of_ne now (apart line now rfl)).trans found
  | drainReady order now =>
      have kept : assembly.maxRefRound ≤ round + roundRetain := retained
      have after := lookup_drainReady order now kept
      have counted := units_drainReady assembly round order now
      rw [found, Option.map_some] at after counted
      rcases fate_of_named assembly now isNamed open_ with
        ⟨passed, early⟩ | ⟨decided, one⟩
      · rw [passed] at after counted
        refine Or.inl ⟨⟨tracked, seen, after, isNamed, firstSeen, seenBefore, open_⟩, counted, ?_⟩
        intro otherOrder other same
        cases same
        exact Nat.le_trans (Nat.sub_le_sub_left seenBefore now) (not_overdue firstSeen early)
      · rw [report, if_neg decided] at after
        exact Or.inr ⟨⟨_, after, rfl⟩, counted.trans one⟩

/-- From a closed round on nothing is returned of it. -/
theorem Closed.accounted {calls : List AssemblyCall} {final : Assembly}
    (closed : assembly.Closed round) (apart : ∀ call ∈ calls, call.Apart round)
    (executed : run (step parseReferenceTimeMs) assembly calls = some final)
    (retained : final.maxRefRound ≤ round + roundRetain) :
    accounted parseReferenceTimeMs assembly round calls = 0 := by
  induction calls generalizing assembly with
  | nil => rfl
  | cons call rest ih =>
      have keptNow := Nat.le_trans (maxRefRound_run executed) retained
      obtain ⟨stays, none⟩ := closed.next (apart call List.mem_cons_self) keptNow
      rw [accounted_cons, none, ih stays
        (fun other member => apart other (List.mem_cons_of_mem call member)) executed]

/-- A waiting round that sees a drain past its deadline is returned exactly once. -/
theorem Waiting.accounted {calls : List AssemblyCall} {final : Assembly} {named : Nat}
    (waiting : assembly.Waiting round named) (apart : ∀ call ∈ calls, call.Apart round)
    (executed : run (step parseReferenceTimeMs) assembly calls = some final)
    (retained : final.maxRefRound ≤ round + roundRetain)
    (drained : ∃ order now, .drainReady order now ∈ calls ∧ incompleteDeadline < now - named) :
    accounted parseReferenceTimeMs assembly round calls = 1 := by
  induction calls generalizing assembly with
  | nil =>
      obtain ⟨_, _, member, _⟩ := drained
      cases member
  | cons call rest ih =>
      have keptNow := Nat.le_trans (maxRefRound_run executed) retained
      have restApart : ∀ other ∈ rest, other.Apart round :=
        fun other member => apart other (List.mem_cons_of_mem call member)
      rw [accounted_cons]
      rcases waiting.next (apart call List.mem_cons_self) keptNow with
        ⟨stays, none, early⟩ | ⟨closes, one⟩
      · obtain ⟨order, now, member, late⟩ := drained
        have inRest : .drainReady order now ∈ rest := by
          refine (List.mem_cons.mp member).resolve_left fun same => ?_
          exact absurd (early order now same.symm) (Nat.not_le_of_lt late)
        rw [none, Nat.zero_add]
        exact ih stays restApart executed ⟨order, now, inRest, late⟩
      · rw [one, closes.accounted restApart executed retained]

end Life

/-! ## A round before its line -/

section Unnamed

variable (origin : Assembly) (round : Nat)

/-- One of the calls tracks an ordering record of the round, in the window of the newest
named round. -/
def Heard (calls : List AssemblyCall) (arrival : Nat) : Prop :=
  ∃ front wallMs back state, calls = front ++ .trackOrdering round arrival wallMs :: back ∧
    run (step parseReferenceTimeMs) origin front = some state ∧ state.Plausible round

/-- A drain comes longer than the deadline after an ordering record of the round. -/
def ExpiresUnnamed (calls : List AssemblyCall) : Prop :=
  ∃ front order now back arrival, calls = front ++ .drainReady order now :: back ∧
    Heard parseReferenceTimeMs origin round front arrival ∧ incompleteDeadline < now - arrival

variable {parseReferenceTimeMs} {origin round} {calls : List AssemblyCall}
  {assembly : Assembly} {call : AssemblyCall}

theorem heard_concat (round : Nat)
    (reached : run (step parseReferenceTimeMs) origin calls = some assembly)
    (call : AssemblyCall) (arrival : Nat) :
    Heard parseReferenceTimeMs origin round (calls ++ [call]) arrival ↔
      Heard parseReferenceTimeMs origin round calls arrival ∨
        ∃ wallMs, call = .trackOrdering round arrival wallMs ∧ assembly.Plausible round := by
  constructor
  · rintro ⟨front, wallMs, back, state, split, toState, isPlausible⟩
    rcases concat_eq_append_cons.mp split with ⟨_, same, isCall⟩ | ⟨rest, _, same⟩
    · subst same
      cases Option.some.inj (reached.symm.trans toState)
      exact Or.inr ⟨wallMs, isCall.symm, isPlausible⟩
    · exact Or.inl ⟨front, wallMs, rest, state, same, toState, isPlausible⟩
  · rintro (⟨front, wallMs, back, state, split, toState, isPlausible⟩ | ⟨wallMs, same, isPlausible⟩)
    · exact ⟨front, wallMs, back ++ [call], state, by rw [split, List.append_assoc]; rfl, toState,
        isPlausible⟩
    · exact ⟨calls, wallMs, [], assembly, by rw [same], reached, isPlausible⟩

theorem expiresUnnamed_concat (call : AssemblyCall) :
    ExpiresUnnamed parseReferenceTimeMs origin round (calls ++ [call]) ↔
      ExpiresUnnamed parseReferenceTimeMs origin round calls ∨
        ∃ order now arrival, call = .drainReady order now ∧
          Heard parseReferenceTimeMs origin round calls arrival ∧
          incompleteDeadline < now - arrival := by
  constructor
  · rintro ⟨front, order, now, back, arrival, split, heard, late⟩
    rcases concat_eq_append_cons.mp split with ⟨_, same, isCall⟩ | ⟨rest, _, same⟩
    · subst same
      exact Or.inr ⟨order, now, arrival, isCall.symm, heard, late⟩
    · exact Or.inl ⟨front, order, now, rest, arrival, same, heard, late⟩
  · rintro (⟨front, order, now, back, arrival, split, heard, late⟩ |
      ⟨order, now, arrival, same, heard, late⟩)
    · exact ⟨front, order, now, back ++ [call], arrival,
        by rw [split, List.append_assoc]; rfl, heard, late⟩
    · exact ⟨calls, order, now, [], arrival, by rw [same], heard, late⟩

/-- What the calls before its line say about the tracked round. -/
structure Unnamed (parseReferenceTimeMs : String → Option Nat) (origin : Assembly) (round : Nat)
    (calls : List AssemblyCall) (assembly : Assembly) : Prop where
  absent : assembly.rounds.lookup round = none →
    ∀ arrival, ¬Heard parseReferenceTimeMs origin round calls arrival
  present : ∀ tracked, assembly.rounds.lookup round = some tracked →
    tracked.reference = none ∧
    (tracked.reportedGap = true ↔ ExpiresUnnamed parseReferenceTimeMs origin round calls) ∧
    ∃ seen, tracked.firstSeen = some seen ∧
      Heard parseReferenceTimeMs origin round calls seen ∧
      ∀ arrival, Heard parseReferenceTimeMs origin round calls arrival → seen ≤ arrival

/-- A call that concerns neither the orderings of the round nor its drains. -/
theorem Unnamed.keep (unnamed : Unnamed parseReferenceTimeMs origin round calls assembly)
    {after : Assembly} (sameRound : after.rounds.lookup round = assembly.rounds.lookup round)
    (sameHeard : ∀ arrival, Heard parseReferenceTimeMs origin round (calls ++ [call]) arrival ↔
      Heard parseReferenceTimeMs origin round calls arrival)
    (sameExpires : ExpiresUnnamed parseReferenceTimeMs origin round (calls ++ [call]) ↔
      ExpiresUnnamed parseReferenceTimeMs origin round calls) :
    Unnamed parseReferenceTimeMs origin round (calls ++ [call]) after := by
  constructor
  · rw [sameRound]
    intro none arrival
    rw [sameHeard]
    exact unnamed.absent none arrival
  · rw [sameRound, sameExpires]
    intro tracked found
    simp only [sameHeard]
    exact unnamed.present tracked found

theorem ExpiresUnnamed.heard (expires : ExpiresUnnamed parseReferenceTimeMs origin round calls) :
    ∃ arrival, Heard parseReferenceTimeMs origin round calls arrival := by
  obtain ⟨front, order, now, back, arrival, split,
      ⟨first, wallMs, second, state, same, heard⟩, _⟩ :=
    expires
  refine ⟨arrival, first, wallMs, second ++ .drainReady order now :: back, state, ?_, heard⟩
  rw [split, same, List.append_assoc]
  rfl

theorem Heard.mem {arrival : Nat} (heard : Heard parseReferenceTimeMs origin round calls arrival) :
    ∃ wallMs, .trackOrdering round arrival wallMs ∈ calls := by
  obtain ⟨front, wallMs, back, _, split, _⟩ := heard
  refine ⟨wallMs, ?_⟩
  rw [split]
  exact List.mem_append_right front List.mem_cons_self

/-- The first ordering record of the round opens it, later ones change no stamp. -/
theorem Unnamed.trackOrdering
    (unnamed : Unnamed parseReferenceTimeMs origin round calls assembly)
    (reached : run (step parseReferenceTimeMs) origin calls = some assembly)
    (other arrival wallMs : Nat)
    (later : ∀ earlier ∈ calls, earlier.time ≤ arrival) :
    Unnamed parseReferenceTimeMs origin round (calls ++ [.trackOrdering other arrival wallMs])
      (assembly.trackOrdering other arrival wallMs) := by
  have sameExpires : ExpiresUnnamed parseReferenceTimeMs origin round
      (calls ++ [.trackOrdering other arrival wallMs]) ↔
      ExpiresUnnamed parseReferenceTimeMs origin round calls := by
    rw [expiresUnnamed_concat]
    exact or_iff_left fun ⟨_, _, _, impossible, _⟩ => nomatch impossible
  have nowLookup := lookup_trackOrdering assembly round other arrival wallMs
  by_cases hit : round = other ∧ assembly.Plausible other
  · obtain ⟨same, isPlausible⟩ := hit
    subst same
    rw [if_pos ⟨rfl, isPlausible⟩] at nowLookup
    have heardNow := heard_concat round reached (.trackOrdering round arrival wallMs)
    have isNow : Heard parseReferenceTimeMs origin round
        (calls ++ [.trackOrdering round arrival wallMs]) arrival :=
      (heardNow arrival).mpr (Or.inr ⟨wallMs, rfl, isPlausible⟩)
    refine ⟨fun none => ?_, fun tracked found => ?_⟩
    · rw [nowLookup] at none
      cases none
    rw [nowLookup] at found
    cases found
    cases before : assembly.rounds.lookup round with
    | none =>
        have isNew : assembly.entry round = {} := by
          unfold entry
          rw [before]
          rfl
        have unheard := unnamed.absent before
        rw [isNew]
        refine ⟨rfl, ⟨nofun, fun expires => ?_⟩, arrival, rfl, isNow, fun instant heard => ?_⟩
        · obtain ⟨instant, heard⟩ := (sameExpires.mp expires).heard
          exact absurd heard (unheard instant)
        · rcases (heardNow instant).mp heard with earlier | ⟨_, isCall, _⟩
          · exact absurd earlier (unheard instant)
          · cases isCall
            exact Nat.le_refl _
    | some tracked =>
        have isOld : assembly.entry round = tracked := by
          unfold entry
          rw [before]
          rfl
        obtain ⟨noReference, reported, seen, firstSeen, heardSeen, least⟩ :=
          unnamed.present tracked before
        rw [isOld, firstSeen]
        refine ⟨noReference, reported.trans sameExpires.symm, seen, rfl,
          (heardNow seen).mpr (Or.inl heardSeen), fun instant heard => ?_⟩
        rcases (heardNow instant).mp heard with earlier | ⟨_, isCall, _⟩
        · exact least instant earlier
        · cases isCall
          obtain ⟨_, member⟩ := heardSeen.mem
          exact later _ member
  · rw [if_neg hit] at nowLookup
    refine unnamed.keep nowLookup (fun instant => ?_) sameExpires
    rw [heard_concat round reached]
    refine or_iff_left fun ⟨_, isCall, isPlausible⟩ => hit ?_
    cases isCall
    exact ⟨rfl, isPlausible⟩

theorem fate_of_unnamed {tracked : TrackedRound} (now : Nat) (unnamed : tracked.reference = none)
    (open_ : tracked.reportedGap = false) :
    assembly.fate now tracked = if overdue tracked now then .unnamed else .passed := by
  unfold fate
  rw [open_, unnamed]
  cases tracked.ordering <;> rfl

/-- A drain gives the round up once an ordering record of it is older than the deadline,
and returns nothing of it. -/
theorem Unnamed.drainReady
    (unnamed : Unnamed parseReferenceTimeMs origin round calls assembly)
    (reached : run (step parseReferenceTimeMs) origin calls = some assembly)
    (order : IterationOrder) (now : Nat)
    (retained : assembly.maxRefRound ≤ round + roundRetain) :
    Unnamed parseReferenceTimeMs origin round (calls ++ [.drainReady order now])
        (assembly.drainReady order now).1 ∧
      assembly.units round (.drainReady order now) = 0 := by
  have nowLookup := lookup_drainReady order now retained
  have counted := units_drainReady assembly round order now
  have sameHeard : ∀ arrival, Heard parseReferenceTimeMs origin round
      (calls ++ [.drainReady order now]) arrival ↔
      Heard parseReferenceTimeMs origin round calls arrival := by
    intro arrival
    rw [heard_concat round reached]
    exact or_iff_left fun ⟨_, impossible, _⟩ => nomatch impossible
  cases before : assembly.rounds.lookup round with
  | none =>
      rw [before, Option.map_none] at nowLookup counted
      refine ⟨⟨fun _ arrival heard => ?_, fun tracked found => ?_⟩, counted⟩
      · exact unnamed.absent before arrival ((sameHeard arrival).mp heard)
      · rw [nowLookup] at found
        cases found
  | some tracked =>
      obtain ⟨noReference, reported, seen, firstSeen, heardSeen, least⟩ :=
        unnamed.present tracked before
      rw [before, Option.map_some] at nowLookup counted
      have lateIff : (∃ otherOrder other arrival,
          AssemblyCall.drainReady order now = .drainReady otherOrder other ∧
          Heard parseReferenceTimeMs origin round calls arrival ∧
          incompleteDeadline < other - arrival) ↔ overdue tracked now = true := by
        unfold overdue
        rw [firstSeen, decide_eq_true_eq]
        constructor
        · rintro ⟨_, _, arrival, same, heard, late⟩
          cases same
          exact Nat.lt_of_lt_of_le late (Nat.sub_le_sub_left (least arrival heard) now)
        · exact fun late => ⟨order, now, seen, rfl, heardSeen, late⟩
      have outcome : (report (assembly.fate now tracked) tracked).reference = none ∧
          (report (assembly.fate now tracked) tracked).firstSeen = some seen ∧
          ((report (assembly.fate now tracked) tracked).reportedGap = true ↔
            tracked.reportedGap = true ∨ overdue tracked now = true) ∧
          (assembly.fate now tracked).units = 0 := by
        cases isReported : tracked.reportedGap with
        | true =>
            rw [fate_of_reported now isReported]
            exact ⟨noReference, firstSeen, iff_of_true isReported (Or.inl rfl), rfl⟩
        | false =>
            rw [fate_of_unnamed now noReference isReported]
            cases overdue tracked now with
            | true => exact ⟨noReference, firstSeen, iff_of_true rfl (Or.inr rfl), rfl⟩
            | false =>
                refine ⟨noReference, firstSeen, ?_, rfl⟩
                change tracked.reportedGap = true ↔ _
                rw [isReported]
                exact iff_of_false nofun (not_or.mpr ⟨nofun, nofun⟩)
      obtain ⟨stillUnnamed, sameSeen, nowReported, none⟩ := outcome
      refine ⟨⟨fun none => ?_, fun after found => ?_⟩, counted.trans none⟩
      · rw [nowLookup] at none
        cases none
      · rw [nowLookup] at found
        cases found
        refine ⟨stillUnnamed, ?_, seen, sameSeen, (sameHeard seen).mpr heardSeen,
          fun arrival heard => least arrival ((sameHeard arrival).mp heard)⟩
        rw [nowReported, expiresUnnamed_concat, reported, lateIff]

theorem Unnamed.next (unnamed : Unnamed parseReferenceTimeMs origin round calls assembly)
    (reached : run (step parseReferenceTimeMs) origin calls = some assembly)
    (later : ∀ earlier ∈ calls, earlier.time ≤ call.time) (apart : call.Apart round)
    (retained : (assembly.next parseReferenceTimeMs call).maxRefRound ≤ round + roundRetain) :
    Unnamed parseReferenceTimeMs origin round (calls ++ [call])
        (assembly.next parseReferenceTimeMs call) ∧
      assembly.units round call = 0 := by
  cases call with
  | trackOrdering other arrival wallMs =>
      exact ⟨unnamed.trackOrdering reached other arrival wallMs later, rfl⟩
  | drainReady order now => exact unnamed.drainReady reached order now retained
  | trackBundle sigR arrival wallMs now =>
      refine ⟨unnamed.keep ?_ (fun instant => ?_) ?_, rfl⟩
      · exact congrArg (AList.lookup round) (rounds_trackBundle sigR arrival wallMs now)
      · rw [heard_concat round reached]
        exact or_iff_left fun ⟨_, impossible, _⟩ => nomatch impossible
      · rw [expiresUnnamed_concat]
        exact or_iff_left fun ⟨_, _, _, impossible, _⟩ => nomatch impossible
  | trackReference line now =>
      refine ⟨unnamed.keep ?_ (fun instant => ?_) ?_, rfl⟩
      · exact lookup_trackReference_of_ne now (apart line now rfl)
      · rw [heard_concat round reached]
        exact or_iff_left fun ⟨_, impossible, _⟩ => nomatch impossible
      · rw [expiresUnnamed_concat]
        exact or_iff_left fun ⟨_, _, _, impossible, _⟩ => nomatch impossible

/-- Before its line a round is returned by no call. -/
theorem unnamed_run {provider : Provider} {coin : String} {nowMs : Nat}
    (executed : run (step parseReferenceTimeMs) (Assembly.new provider coin nowMs) calls =
      some assembly)
    (chronological : calls.Pairwise fun earlier later => earlier.time ≤ later.time)
    (apart : ∀ call ∈ calls, call.Apart round)
    (retained : assembly.maxRefRound ≤ round + roundRetain) :
    Unnamed parseReferenceTimeMs (Assembly.new provider coin nowMs) round calls assembly ∧
      accounted parseReferenceTimeMs (Assembly.new provider coin nowMs) round calls = 0 := by
  refine run_induction (fun calls (assembly : Assembly) =>
    (calls.Pairwise fun earlier later => earlier.time ≤ later.time) →
    (∀ call ∈ calls, call.Apart round) → assembly.maxRefRound ≤ round + roundRetain →
    Unnamed parseReferenceTimeMs (Assembly.new provider coin nowMs) round calls assembly ∧
      accounted parseReferenceTimeMs (Assembly.new provider coin nowMs) round calls = 0)
    ?_ ?_ executed chronological apart retained
  · refine fun _ _ _ => ⟨⟨fun _ arrival heard => ?_, nofun⟩, rfl⟩
    obtain ⟨_, member⟩ := heard.mem
    cases member
  · intro calls before call after reached held stepped chronological apart retained
    cases stepped
    obtain ⟨earlierInOrder, _, lastLater⟩ := List.pairwise_append.mp chronological
    obtain ⟨unnamed, none⟩ := held earlierInOrder
      (fun other member => apart other (List.mem_append_left [call] member))
      (Nat.le_trans (maxRefRound_next call) retained)
    obtain ⟨unnamedAfter, noUnits⟩ := unnamed.next reached
      (fun earlier member => lastLater earlier member call List.mem_cons_self)
      (apart call (List.mem_append_right calls List.mem_cons_self)) retained
    refine ⟨unnamedAfter, ?_⟩
    rw [accounted_append reached, none, accounted_cons, noUnits]
    rfl

end Unnamed

/-! ## Accounting -/

section Account

variable {parseReferenceTimeMs} {provider : Provider} {coin : String} {nowMs : Nat}
  {before after : List AssemblyCall} {line : ReferenceLine} {named : Nat}
  {reference : ReferenceRound} {final : Assembly}

/-- An accepted line leaves its round waiting, unless it was given up before. -/
theorem named_round {assembly : Assembly}
    (unnamed : Unnamed parseReferenceTimeMs (Assembly.new provider coin nowMs) line.r before
      assembly)
    (chronological : ∀ earlier ∈ before, earlier.time ≤ named)
    (accepted : referenceRound parseReferenceTimeMs line = some reference)
    (scored : assembly.scoreFromMs ≤ reference.timeMs) :
    (ExpiresUnnamed parseReferenceTimeMs (Assembly.new provider coin nowMs) line.r before →
      (trackReference parseReferenceTimeMs assembly line named).Closed line.r) ∧
    (¬ExpiresUnnamed parseReferenceTimeMs (Assembly.new provider coin nowMs) line.r before →
      (trackReference parseReferenceTimeMs assembly line named).Waiting line.r named) := by
  have nowLookup := lookup_trackReference named accepted scored
  cases found : assembly.rounds.lookup line.r with
  | none =>
      have isNew : assembly.entry line.r = {} := by
        unfold entry
        rw [found]
        rfl
      rw [isNew] at nowLookup
      refine ⟨fun expires => ?_, fun _ => ⟨_, named, nowLookup, rfl, rfl, Nat.le_refl _, rfl⟩⟩
      obtain ⟨arrival, heard⟩ := expires.heard
      exact absurd heard (unnamed.absent found arrival)
  | some tracked =>
      have isOld : assembly.entry line.r = tracked := by
        unfold entry
        rw [found]
        rfl
      obtain ⟨_, reported, seen, firstSeen, heardSeen, _⟩ := unnamed.present tracked found
      rw [isOld, firstSeen] at nowLookup
      refine ⟨fun expires => ⟨_, nowLookup, reported.mpr expires⟩, fun inTime => ?_⟩
      obtain ⟨_, member⟩ := heardSeen.mem
      refine ⟨_, seen, nowLookup, rfl, rfl, chronological _ member, ?_⟩
      exact Bool.eq_false_iff.mpr fun isReported => inTime (reported.mp isReported)

/--
A round whose only line is accepted, that is retained, and that sees a drain
past the deadline after its line, is accounted exactly once if and only if no
drain before its line came past the deadline of an ordering record of it.
-/
theorem round_accounted_once_iff
    (executed : run (step parseReferenceTimeMs) (Assembly.new provider coin nowMs)
      (before ++ .trackReference line named :: after) = some final)
    (chronological : (before ++ .trackReference line named :: after).Pairwise
      fun earlier later => earlier.time ≤ later.time)
    (onlyLine : ∀ call ∈ before ++ after, call.Apart line.r)
    (accepted : referenceRound parseReferenceTimeMs line = some reference)
    (scored : (Assembly.new provider coin nowMs).scoreFromMs ≤ reference.timeMs)
    (retained : final.maxRefRound ≤ line.r + roundRetain)
    (drained : ∃ order now, .drainReady order now ∈ after ∧ incompleteDeadline < now - named) :
    accounted parseReferenceTimeMs (Assembly.new provider coin nowMs) line.r
        (before ++ .trackReference line named :: after) = 1 ↔
      ¬ExpiresUnnamed parseReferenceTimeMs (Assembly.new provider coin nowMs) line.r before := by
  obtain ⟨assembly, reached, onward⟩ := run_append_eq_some executed
  obtain ⟨beforeInOrder, _, lineLater⟩ := List.pairwise_append.mp chronological
  have afterKept := Nat.le_trans (maxRefRound_run onward) retained
  have beforeKept : assembly.maxRefRound ≤ line.r + roundRetain :=
    Nat.le_trans (maxRefRound_next (.trackReference line named)) afterKept
  obtain ⟨unnamed, none⟩ := unnamed_run reached beforeInOrder
    (fun call member => onlyLine call (List.mem_append_left after member)) beforeKept
  have sameScore : assembly.scoreFromMs = (Assembly.new provider coin nowMs).scoreFromMs :=
    scoreFromMs_run reached
  rw [← sameScore] at scored
  have namedLater : ∀ earlier ∈ before, earlier.time ≤ named :=
    fun earlier member => lineLater earlier member _ List.mem_cons_self
  obtain ⟨closes, waits⟩ := named_round unnamed namedLater accepted scored
  have afterApart : ∀ call ∈ after, call.Apart line.r :=
    fun call member => onlyLine call (List.mem_append_right before member)
  have lineUnits : assembly.units line.r (.trackReference line named) = 0 := rfl
  have lineAfter : assembly.next parseReferenceTimeMs (.trackReference line named) =
      trackReference parseReferenceTimeMs assembly line named := rfl
  rw [accounted_append reached, none, accounted_cons, lineUnits, Nat.zero_add, Nat.zero_add,
    lineAfter]
  by_cases expires : ExpiresUnnamed parseReferenceTimeMs (Assembly.new provider coin nowMs)
      line.r before
  · rw [(closes expires).accounted afterApart onward retained]
    exact iff_of_false nofun (not_not.mpr expires)
  · exact iff_of_true ((waits expires).accounted afterApart onward retained drained) expires

end Account

/-! ## Sample runs -/

/-- The parser of reference times, on the times of the sample lines. -/
def sampleTimeMs : String → Option Nat
  | "2026-08-10T14:43:15.093322286" => some 1786372995093
  | "2026-08-10T14:43:15.160000000" => some 1786372995160
  | _ => none

def sampleLine (round : Nat) (time : String) : ReferenceLine where
  r := round
  t := time
  b := []

def firstLine : ReferenceLine := sampleLine 2000000 "2026-08-10T14:43:15.093322286"
def secondLine : ReferenceLine := sampleLine 2000001 "2026-08-10T14:43:15.160000000"

/-- A line of the first round, an ordering record of the second one, and a drain. -/
def secondHeard (drained : Nat) : List AssemblyCall :=
  [.trackReference firstLine 0, .trackOrdering 2000001 (fromSecs 1) 1786372995200,
    .drainReady .stored drained]

def drainedLater : List AssemblyCall := [.drainReady .stored (fromSecs 20)]

def sampleAssembly : Assembly := Assembly.new .quickNodePeeringTcp "BLOCKS" 1786372900000

/-- The line of the second round is the only one in the sample runs. -/
theorem secondLine_apart (drained : Nat) :
    ∀ call ∈ secondHeard drained ++ drainedLater, call.Apart secondLine.r := by
  intro call member line now same
  subst same
  simp only [secondHeard, drainedLater, List.cons_append, List.nil_append, List.mem_cons,
    List.not_mem_nil, or_false, AssemblyCall.trackReference.injEq, reduceCtorEq, or_self] at member
  rw [member.1]
  decide

/-- The line comes while the round has time, and the round is returned once. -/
theorem round_accounted_once_prompt :
    accounted sampleTimeMs sampleAssembly secondLine.r
      (secondHeard (fromSecs 2) ++ .trackReference secondLine (fromSecs 3) :: drainedLater) =
        1 := by
  have inTime : ¬ExpiresUnnamed sampleTimeMs sampleAssembly secondLine.r
      (secondHeard (fromSecs 2)) := by
    rintro ⟨front, order, now, back, arrival, split, _, late⟩
    have member : AssemblyCall.drainReady order now ∈ secondHeard (fromSecs 2) := by
      rw [split]
      exact List.mem_append_right front List.mem_cons_self
    simp only [secondHeard, List.mem_cons, List.not_mem_nil, or_false, reduceCtorEq, false_or,
      AssemblyCall.drainReady.injEq] at member
    rw [member.2] at late
    exact absurd (Nat.lt_of_lt_of_le late (Nat.sub_le _ _)) (by decide)
  have accepted : referenceRound sampleTimeMs secondLine =
      some { timeMs := 1786372995160, bundleSigs := [] } := rfl
  have executed : run (step sampleTimeMs) (Assembly.new .quickNodePeeringTcp "BLOCKS" 1786372900000)
      (secondHeard (fromSecs 2) ++ .trackReference secondLine (fromSecs 3) :: drainedLater) =
        some _ := rfl
  exact (round_accounted_once_iff executed (by decide) (secondLine_apart _) accepted (by decide)
    (by decide +kernel) ⟨.stored, fromSecs 20, List.mem_cons_self, by decide⟩).mpr inTime

/-- A reference feed that stalls past the deadline of an ordering record loses the round:
its line is accepted, it is retained, and no drain returns it. -/
theorem round_lost :
    (secondHeard (fromSecs 7) ++ .trackReference secondLine (fromSecs 8) ::
        drainedLater).Pairwise (fun earlier later => earlier.time ≤ later.time) ∧
      (∀ call ∈ secondHeard (fromSecs 7) ++ drainedLater, call.Apart secondLine.r) ∧
      referenceRound sampleTimeMs secondLine =
        some { timeMs := 1786372995160, bundleSigs := [] } ∧
      sampleAssembly.scoreFromMs ≤ 1786372995160 ∧
      (run (step sampleTimeMs) sampleAssembly (secondHeard (fromSecs 7) ++
        .trackReference secondLine (fromSecs 8) :: drainedLater)).map
          (fun final => final.maxRefRound) = some secondLine.r ∧
      incompleteDeadline < fromSecs 20 - fromSecs 8 ∧
      accounted sampleTimeMs sampleAssembly secondLine.r
        (secondHeard (fromSecs 7) ++ .trackReference secondLine (fromSecs 8) ::
          drainedLater) = 0 :=
  ⟨by decide, secondLine_apart _, rfl, by decide, by decide +kernel, by decide, by decide +kernel⟩

end Assembly

end MarketBenchmark
