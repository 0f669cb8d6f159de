import MarketBenchmark.Benchmark.Calls

/-!
# What a pending base has gathered

A pending base is determined by the set of the events that were stored in it:
its first observation and those of its candidates are the earliest receipts,
and its candidates hold one arrival for each stored event.  The order in which
the events were stored leaves no trace.
-/

namespace MarketBenchmark

open Foundation.HashMaps

namespace Benchmark

/-- What an arrival keeps of its event. -/
def observationOf (event : MarketEvent) : Observation where
  received := event.received
  receivedWallMs := event.receivedWallMs

/-- The instant is the earliest receipt of the events. -/
def Earliest (events : List MarketEvent) (instant : Nat) : Prop :=
  ∀ bound, bound ≤ instant ↔ ∀ event ∈ events, bound ≤ event.received

/-- The stored events of one content. -/
def ofContent (stored : List MarketEvent) (content : ContentKey) : List MarketEvent :=
  stored.filter fun event => decide (event.key.content = content)

/-- A candidate holds one arrival for each of the events. -/
structure Collects (events : List MarketEvent) (candidate : PendingCandidate) : Prop where
  earliest : Earliest events candidate.firstObserved
  arrivals : ∀ provider observation, candidate.arrivals provider = some observation ↔
    ∃ event ∈ events, event.provider = provider ∧ observationOf event = observation

/-- A base holds the stored events and no others. -/
structure Gathers (stored : List MarketEvent) (pending : PendingBase) : Prop where
  earliest : Earliest stored pending.firstObserved
  present : ∀ content, content ∈ pending.candidates ↔
    ∃ event ∈ stored, event.key.content = content
  collects : ∀ content candidate, pending.candidates.lookup content = some candidate →
    Collects (ofContent stored content) candidate

/-! ## The earliest receipt -/

namespace Earliest

variable {events : List MarketEvent} {instant : Nat}

theorem le (earliest : Earliest events instant) {event : MarketEvent} (member : event ∈ events) :
    instant ≤ event.received :=
  (earliest instant).mp (Nat.le_refl instant) event member

/-- The earliest receipt is that of one of the events. -/
theorem exists_eq (earliest : Earliest events instant) :
    ∃ event ∈ events, event.received = instant := by
  by_contra never
  have above : ∀ event ∈ events, instant + 1 ≤ event.received := by
    intro event member
    have different : event.received ≠ instant := fun same => never ⟨event, member, same⟩
    have below := earliest.le member
    omega
  exact Nat.not_succ_le_self instant ((earliest (instant + 1)).mpr above)

theorem unique {others : List MarketEvent} {other : Nat} (earliest : Earliest events instant)
    (otherEarliest : Earliest others other) (same : ∀ event, event ∈ events ↔ event ∈ others) :
    instant = other := by
  refine eq_of_forall_le_iff fun bound => ?_
  rw [earliest bound, otherEarliest bound]
  exact forall_congr' fun event => imp_congr_left (same event)

theorem lone (event : MarketEvent) : Earliest [event] event.received := by
  intro bound
  rw [List.forall_mem_singleton]

theorem append (earliest : Earliest events instant) (event : MarketEvent) :
    Earliest (events ++ [event]) (min instant event.received) := by
  intro bound
  rw [le_min_iff, earliest bound, List.forall_mem_append, List.forall_mem_singleton]

/-- Time passes since the earliest receipt as soon as it passes since one of the events. -/
theorem le_sub_iff (earliest : Earliest events instant) {span later : Nat} :
    span ≤ later - instant ↔ ∃ event ∈ events, span ≤ later - event.received := by
  constructor
  · intro passed
    obtain ⟨event, member, same⟩ := earliest.exists_eq
    exact ⟨event, member, by rwa [same]⟩
  · rintro ⟨event, member, passed⟩
    exact Nat.le_trans passed (Nat.sub_le_sub_left (earliest.le member) later)

end Earliest

theorem mem_ofContent {stored : List MarketEvent} {content : ContentKey} {event : MarketEvent} :
    event ∈ ofContent stored content ↔ event ∈ stored ∧ event.key.content = content := by
  unfold ofContent
  rw [List.mem_filter, decide_eq_true_eq]

theorem ofContent_append (stored : List MarketEvent) (content : ContentKey)
    (event : MarketEvent) :
    ofContent (stored ++ [event]) content =
      ofContent stored content ++ if event.key.content = content then [event] else [] := by
  unfold ofContent
  rw [List.filter_append, List.filter_singleton]
  by_cases own : event.key.content = content
  · rw [if_pos own, decide_eq_true own]
    rfl
  · rw [if_neg own, decide_eq_false own]
    rfl

/-! ## The set of stored events determines the base -/

theorem Collects.unique {events others : List MarketEvent} {candidate other : PendingCandidate}
    (collects : Collects events candidate) (otherCollects : Collects others other)
    (same : ∀ event, event ∈ events ↔ event ∈ others) : candidate = other := by
  have arrivals : candidate.arrivals = other.arrivals := by
    funext provider
    refine Option.ext fun observation => ?_
    rw [collects.arrivals, otherCollects.arrivals]
    exact exists_congr fun event => and_congr_left' (same event)
  have observed := collects.earliest.unique otherCollects.earliest same
  cases candidate
  cases other
  cases arrivals
  cases observed
  rfl

namespace Gathers

variable {stored others : List MarketEvent} {pending other : PendingBase}

theorem firstObserved_eq (gathers : Gathers stored pending) (otherGathers : Gathers others other)
    (same : ∀ event, event ∈ stored ↔ event ∈ others) :
    pending.firstObserved = other.firstObserved :=
  gathers.earliest.unique otherGathers.earliest same

theorem lookup_eq (gathers : Gathers stored pending) (otherGathers : Gathers others other)
    (same : ∀ event, event ∈ stored ↔ event ∈ others) (content : ContentKey) :
    pending.candidates.lookup content = other.candidates.lookup content := by
  have together : content ∈ pending.candidates ↔ content ∈ other.candidates := by
    rw [gathers.present, otherGathers.present]
    exact exists_congr fun event => and_congr_left' (same event)
  cases found : pending.candidates.lookup content with
  | none =>
      have absent := mt together.mpr (AList.lookup_eq_none.mp found)
      exact (AList.lookup_eq_none.mpr absent).symm
  | some candidate =>
      obtain ⟨twin, otherFound⟩ := HashMap.exists_lookup_of_mem
        (together.mp (HashMap.mem_of_lookup found))
      rw [otherFound]
      refine congrArg some ((gathers.collects content candidate found).unique
        (otherGathers.collects content twin otherFound) fun event => ?_)
      rw [mem_ofContent, mem_ofContent, same event]

theorem entries_perm (gathers : Gathers stored pending) (otherGathers : Gathers others other)
    (same : ∀ event, event ∈ stored ↔ event ∈ others) :
    pending.candidates.entries.Perm other.candidates.entries :=
  HashMap.entries_perm_of_lookup (gathers.lookup_eq otherGathers same)

theorem length_le (gathers : Gathers stored pending) :
    pending.candidates.entries.length ≤
      ((stored.map fun event => event.key.content).toFinset).card := by
  have nodup : (pending.candidates.entries.map Sigma.fst).Nodup := pending.candidates.nodupKeys
  rw [← List.length_map Sigma.fst, ← List.toFinset_card_of_nodup nodup]
  refine Finset.card_le_card fun content member => ?_
  rw [List.mem_toFinset] at member ⊢
  obtain ⟨event, isStored, sameContent⟩ := (gathers.present content).mp member
  exact List.mem_map.mpr ⟨event, isStored, sameContent⟩

/-- The arrivals of a provider that pass a test are the stored events that do. -/
theorem countP_arrivals (gathers : Gathers stored pending)
    (distinct : (stored.map fun event => (event.provider, event.key.content)).Nodup)
    (provider : Provider) (test : Observation → Bool) :
    (pending.candidates.entries.countP fun entry => (entry.2.arrivals provider).any test) =
      stored.countP fun event =>
        decide (event.provider = provider) && test (observationOf event) := by
  have entriesNodup : ((pending.candidates.entries.filter fun entry =>
      (entry.2.arrivals provider).any test).map Sigma.fst).Nodup :=
    pending.candidates.nodupKeys.sublist List.filter_sublist
  have storedNodup : ((stored.filter fun event =>
      decide (event.provider = provider) && test (observationOf event)).map
        fun event => event.key.content).Nodup := by
    refine List.Nodup.map_on ?_ (distinct.of_map.filter _)
    intro first firstMember second secondMember same
    obtain ⟨firstStored, firstPasses⟩ := List.mem_filter.mp firstMember
    obtain ⟨secondStored, secondPasses⟩ := List.mem_filter.mp secondMember
    rw [Bool.and_eq_true, decide_eq_true_eq] at firstPasses secondPasses
    refine List.inj_on_of_nodup_map distinct firstStored secondStored ?_
    exact Prod.ext (firstPasses.1.trans secondPasses.1.symm) same
  rw [List.countP_eq_length_filter, List.countP_eq_length_filter,
    ← List.length_map Sigma.fst, ← List.length_map fun event : MarketEvent => event.key.content]
  refine ((List.perm_ext_iff_of_nodup entriesNodup storedNodup).mpr fun content => ?_).length_eq
  constructor
  · intro member
    obtain ⟨⟨held, candidate⟩, passed, rfl⟩ := List.mem_map.mp member
    obtain ⟨entry, passes⟩ := List.mem_filter.mp passed
    obtain ⟨observation, arrived, tested⟩ := (Option.any_eq_true ..).mp passes
    obtain ⟨event, own, fromProvider, sameObservation⟩ :=
      ((gathers.collects held candidate (HashMap.mem_entries_iff.mp entry)).arrivals provider
        observation).mp arrived
    obtain ⟨isStored, sameContent⟩ := mem_ofContent.mp own
    refine List.mem_map.mpr ⟨event, List.mem_filter.mpr ⟨isStored, ?_⟩, sameContent⟩
    rw [decide_eq_true fromProvider, sameObservation, tested]
    rfl
  · intro member
    obtain ⟨event, passed, rfl⟩ := List.mem_map.mp member
    obtain ⟨isStored, passes⟩ := List.mem_filter.mp passed
    rw [Bool.and_eq_true, decide_eq_true_eq] at passes
    obtain ⟨candidate, found⟩ := HashMap.exists_lookup_of_mem
      ((gathers.present event.key.content).mpr ⟨event, isStored, rfl⟩)
    have arrived := ((gathers.collects _ candidate found).arrivals provider
      (observationOf event)).mpr ⟨event, mem_ofContent.mpr ⟨isStored, rfl⟩, passes.1, rfl⟩
    refine List.mem_map.mpr ⟨⟨event.key.content, candidate⟩, List.mem_filter.mpr ⟨?_, ?_⟩, rfl⟩
    · exact HashMap.mem_entries_iff.mpr found
    · dsimp only
      rw [arrived]
      exact passes.2

end Gathers

/-! ## Storing one more event -/

/-- What is pending of the base holds the stored events. -/
def Keeps (stored : List MarketEvent) : Option PendingBase → Prop
  | none => stored = []
  | some pending => Gathers stored pending

section Storing

variable {benchmark : Benchmark} {stored : List MarketEvent} {event : MarketEvent}

theorem openedBase_of_lookup {pending : PendingBase}
    (found : benchmark.pending.lookup event.key.base = some pending) :
    benchmark.openedBase event =
      { pending with firstObserved := min pending.firstObserved event.received } := by
  unfold openedBase
  rw [found]
  rfl

theorem openedBase_of_none (absent : benchmark.pending.lookup event.key.base = none) :
    benchmark.openedBase event = PendingBase.new event.received := by
  unfold openedBase
  rw [absent]
  exact congrArg (fun instant => { PendingBase.new event.received with firstObserved := instant })
    (Nat.min_self event.received)

/-- Opening the base takes the event's receipt into account and nothing else. -/
structure Opens (stored : List MarketEvent) (event : MarketEvent) (opened : PendingBase) :
    Prop where
  earliest : Earliest (stored ++ [event]) opened.firstObserved
  present : ∀ content, content ∈ opened.candidates ↔
    ∃ other ∈ stored, other.key.content = content
  collects : ∀ content candidate, opened.candidates.lookup content = some candidate →
    Collects (ofContent stored content) candidate

theorem opens_openedBase (keeps : Keeps stored (benchmark.pending.lookup event.key.base)) :
    Opens stored event (benchmark.openedBase event) := by
  cases found : benchmark.pending.lookup event.key.base with
  | none =>
      rw [found] at keeps
      obtain rfl : stored = [] := keeps
      rw [openedBase_of_none found]
      refine ⟨Earliest.lone event, fun content => ?_, fun content candidate impossible => ?_⟩
      · exact iff_of_false (AList.notMem_empty content) fun ⟨_, member, _⟩ =>
          List.not_mem_nil member
      · cases impossible
  | some pending =>
      rw [found] at keeps
      have gathers : Gathers stored pending := keeps
      rw [openedBase_of_lookup found]
      exact ⟨gathers.earliest.append event, gathers.present, gathers.collects⟩

/-- The opened candidate holds what was stored of its content. -/
theorem collects_openedCandidate
    (keeps : Keeps stored (benchmark.pending.lookup event.key.base)) :
    Earliest (ofContent stored event.key.content ++ [event])
        (benchmark.openedCandidate event).firstObserved ∧
      ∀ provider observation,
        (benchmark.openedCandidate event).arrivals provider = some observation ↔
          ∃ other ∈ ofContent stored event.key.content, other.provider = provider ∧
            observationOf other = observation := by
  have opens := opens_openedBase keeps
  unfold openedCandidate
  dsimp only
  cases found : (benchmark.openedBase event).candidates.lookup event.key.content with
  | none =>
      have absent : ofContent stored event.key.content = [] := by
        refine List.eq_nil_iff_forall_not_mem.mpr fun other member => ?_
        obtain ⟨isStored, sameContent⟩ := mem_ofContent.mp member
        exact AList.lookup_eq_none.mp found ((opens.present _).mpr ⟨other, isStored, sameContent⟩)
      rw [absent]
      refine ⟨?_, fun provider observation => ?_⟩
      · rw [Option.getD_none]
        exact (Nat.min_self event.received).symm ▸ Earliest.lone event
      · refine iff_of_false ?_ fun ⟨_, member, _⟩ => List.not_mem_nil member
        rw [Option.getD_none]
        exact Option.some_ne_none observation ∘ Eq.symm
  | some candidate =>
      have collects := opens.collects _ candidate found
      exact ⟨collects.earliest.append event, collects.arrivals⟩

/-- No stored event has the provider and the content of the next one. -/
def Fresh (stored : List MarketEvent) (event : MarketEvent) : Prop :=
  ∀ other ∈ stored, other.provider = event.provider → other.key.content ≠ event.key.content

theorem not_hasArrival_of_fresh
    (keeps : Keeps stored (benchmark.pending.lookup event.key.base))
    (fresh : Fresh stored event) :
    ¬(benchmark.openedCandidate event).hasArrival event.provider = true := by
  intro arrived
  obtain ⟨observation, here⟩ := Option.isSome_iff_exists.mp arrived
  obtain ⟨other, member, sameProvider, _⟩ :=
    ((collects_openedCandidate keeps).2 event.provider observation).mp here
  obtain ⟨isStored, sameContent⟩ := mem_ofContent.mp member
  exact fresh other isStored sameProvider sameContent

theorem collects_withArrival
    (keeps : Keeps stored (benchmark.pending.lookup event.key.base))
    (fresh : Fresh stored event) :
    Collects (ofContent stored event.key.content ++ [event])
      (withArrival (benchmark.openedCandidate event) event) := by
  obtain ⟨earliest, arrivals⟩ := collects_openedCandidate keeps
  refine ⟨earliest, fun provider observation => ?_⟩
  unfold withArrival
  dsimp only
  rw [Function.update_apply]
  constructor
  · intro arrived
    by_cases own : provider = event.provider
    · rw [if_pos own] at arrived
      exact ⟨event, List.mem_append_right _ (List.mem_singleton_self _), own.symm,
        Option.some.inj arrived⟩
    · rw [if_neg own] at arrived
      obtain ⟨other, member, facts⟩ := (arrivals provider observation).mp arrived
      exact ⟨other, List.mem_append_left _ member, facts⟩
  · rintro ⟨other, member, rfl, rfl⟩
    rcases List.mem_append.mp member with before | last
    · have different : other.provider ≠ event.provider := by
        intro sameProvider
        obtain ⟨isStored, sameContent⟩ := mem_ofContent.mp before
        exact fresh other isStored sameProvider sameContent
      rw [if_neg different]
      exact (arrivals _ _).mpr ⟨other, before, rfl, rfl⟩
    · rw [List.mem_singleton.mp last, if_pos rfl]
      rfl

/-- The base of a stored event has gathered one event more. -/
theorem gathers_heldBase
    (keeps : Keeps stored (benchmark.pending.lookup event.key.base))
    (fresh : Fresh stored event) :
    Gathers (stored ++ [event])
      (benchmark.heldBase event (withArrival (benchmark.openedCandidate event) event)) := by
  have opens := opens_openedBase keeps
  refine ⟨opens.earliest, fun content => ?_, fun content candidate found => ?_⟩
  · refine (AList.mem_insert _).trans ?_
    rw [opens.present]
    constructor
    · rintro (rfl | ⟨other, isStored, sameContent⟩)
      · exact ⟨event, List.mem_append_right _ (List.mem_singleton_self _), rfl⟩
      · exact ⟨other, List.mem_append_left _ isStored, sameContent⟩
    · rintro ⟨other, member, rfl⟩
      rcases List.mem_append.mp member with before | last
      · exact Or.inr ⟨other, before, rfl⟩
      · rw [List.mem_singleton.mp last]
        exact Or.inl rfl
  · rw [ofContent_append]
    rcases HashMap.lookup_insert_eq_some.mp found with ⟨rfl, rfl⟩ | ⟨different, before⟩
    · rw [if_pos rfl]
      exact collects_withArrival keeps fresh
    · rw [if_neg (Ne.symm different), List.append_nil]
      exact opens.collects content candidate before

/-- A base never overflows while the contents of its events fit. -/
theorem not_overflowing_of_few
    (keeps : Keeps stored (benchmark.pending.lookup event.key.base))
    (few : (((stored ++ [event]).map fun other => other.key.content).toFinset).card ≤
      maxSignaturesPerBase) : ¬benchmark.Overflowing event := by
  have opens := opens_openedBase keeps
  rintro ⟨absent, full⟩
  have contents : (event.key.content ::
      (benchmark.openedBase event).candidates.entries.map Sigma.fst).toFinset ⊆
      ((stored ++ [event]).map fun other => other.key.content).toFinset := by
    intro content member
    rw [List.mem_toFinset] at member ⊢
    rcases List.mem_cons.mp member with rfl | present
    · exact List.mem_map.mpr ⟨event, List.mem_append_right _ (List.mem_singleton_self _), rfl⟩
    · obtain ⟨other, isStored, sameContent⟩ := (opens.present content).mp present
      exact List.mem_map.mpr ⟨other, List.mem_append_left _ isStored, sameContent⟩
  have distinct : (event.key.content ::
      (benchmark.openedBase event).candidates.entries.map Sigma.fst).Nodup :=
    List.nodup_cons.mpr ⟨absent, (benchmark.openedBase event).candidates.nodupKeys⟩
  have counted := Finset.card_le_card contents
  rw [List.toFinset_card_of_nodup distinct, List.length_cons, List.length_map] at counted
  omega

end Storing

end Benchmark

end MarketBenchmark
