import MarketBenchmark.Benchmark.Verdicts

/-!
# The run of one base

The events of one base, recorded in some order on a fresh benchmark and followed
by one tick.  Until an event comes a timeout after a stored one, the base waits;
from then on it is shut.  `cutFrom` splits an order there, and the admission
after the tick is the verdict on what was stored before the cut.
-/

namespace MarketBenchmark

open Foundation.HashMaps Foundation.TimedRing Foundation.Runs ProviderCounters

namespace Benchmark

/-- Valid events of one base, one for each provider and content, with few contents. -/
structure OneBase (config : BenchmarkConfig) (base : BaseKey) (events : List MarketEvent) :
    Prop where
  registered : base.coin ∈ config.coins
  accepted : ∀ event ∈ events, Accepted config event
  own : ∀ event ∈ events, event.key.base = base
  distinct : (events.map fun event => (event.provider, event.key.content)).Nodup
  few : (events.map fun event => event.key.content).toFinset.card ≤ maxSignaturesPerBase

/-- The stored events, and the events from the first that comes a timeout after one of them. -/
def cutFrom (cohortTimeout : Nat) (stored : List MarketEvent) :
    List MarketEvent → List MarketEvent × List MarketEvent
  | [] => (stored, [])
  | event :: rest =>
      if stored.any fun first => decide (cohortTimeout ≤ event.received - first.received) then
        (stored, event :: rest)
      else cutFrom cohortTimeout (stored ++ [event]) rest

/-- The base is sealed by the first event past the cut, or by the tick. -/
def sealTime (tickAt : Nat) : List MarketEvent → Nat
  | [] => tickAt
  | event :: _ => event.received

variable {config : BenchmarkConfig} {base : BaseKey} {benchmark : Benchmark}
  {order : IterationOrder} {stored rest events : List MarketEvent} {event : MarketEvent}
  {pending : PendingBase} {sealedAt tickAt : Nat}

namespace OneBase

theorem perm {others : List MarketEvent} (oneBase : OneBase config base events)
    (same : others.Perm events) : OneBase config base others where
  registered := oneBase.registered
  accepted event member := oneBase.accepted event (same.mem_iff.mp member)
  own event member := oneBase.own event (same.mem_iff.mp member)
  distinct := (same.map _).nodup_iff.mpr oneBase.distinct
  few := by
    rw [List.toFinset_eq_of_perm _ _ (same.map _)]
    exact oneBase.few

theorem front {back : List MarketEvent} (oneBase : OneBase config base (stored ++ back)) :
    OneBase config base stored where
  registered := oneBase.registered
  accepted event member := oneBase.accepted event (List.mem_append_left back member)
  own event member := oneBase.own event (List.mem_append_left back member)
  distinct := oneBase.distinct.sublist ((List.sublist_append_left stored back).map _)
  few := by
    refine (Finset.card_le_card ?_).trans oneBase.few
    intro content member
    rw [List.mem_toFinset] at member ⊢
    exact ((List.sublist_append_left stored back).map _).subset member

theorem back (oneBase : OneBase config base (stored ++ events)) : OneBase config base events :=
  (oneBase.perm List.perm_append_comm).front

theorem fresh {back : List MarketEvent} (oneBase : OneBase config base (stored ++ event :: back)) :
    Fresh stored event := by
  have distinct := oneBase.distinct
  rw [List.map_append, List.nodup_append] at distinct
  intro other member sameProvider sameContent
  exact distinct.2.2 _ (List.mem_map_of_mem member) _ (List.mem_map_of_mem List.mem_cons_self)
    (Prod.ext sameProvider sameContent)

end OneBase

/-! ## Before and after the seal -/

/-- Nothing but the base was ever recorded, and the base waits with the stored events. -/
structure Waiting (config : BenchmarkConfig) (base : BaseKey) (stored : List MarketEvent)
    (benchmark : Benchmark) : Prop where
  sameConfig : benchmark.config = config
  pending : (stored = [] ∧ benchmark.pending = ∅) ∨ ∃ pending, Gathers stored pending ∧
    benchmark.pending = (∅ : HashMap BaseKey PendingBase).insert base pending
  unsealed : base ∉ benchmark.settledBases
  unmarked : benchmark.settled = ∅
  cohorts : (benchmark.windows base.coin).cohorts = []
  coverage : (benchmark.windows base.coin).coverage = []
  counted : ∀ provider, judged (benchmark.counters base.coin provider) = 0

/-- The base was sealed with the stored events, and the rest came too late. -/
structure Shut (config : BenchmarkConfig) (base : BaseKey) (stored : List MarketEvent)
    (pending : PendingBase) (sealedAt : Nat) (rest : List MarketEvent) (benchmark : Benchmark) :
    Prop where
  sameConfig : benchmark.config = config
  idle : benchmark.pending = ∅
  isSealed : base ∈ benchmark.settledBases
  marked : ∀ key settled provider, benchmark.settled.lookup key = some settled →
    settled.matchedMask provider = true → ∃ event ∈ stored, event.provider = provider ∧
      event.key.content = key.content
  cohorts : ((benchmark.windows base.coin).cohorts.map committedSample).Perm
    (sealedCohorts config base pending)
  coverage : (benchmark.windows base.coin).coverage.Perm
    (sealedCoverage config base pending sealedAt)
  counted : ∀ provider, judged (benchmark.counters base.coin provider) =
    sealedCounts config pending provider + lateCounts rest provider

theorem Waiting.new (config : BenchmarkConfig) (base : BaseKey) (startedAt startedWallMs : Nat) :
    Waiting config base [] (Benchmark.new config startedAt startedWallMs) where
  sameConfig := rfl
  pending := Or.inl ⟨rfl, rfl⟩
  unsealed := AList.notMem_empty base
  unmarked := rfl
  cohorts := rfl
  coverage := rfl
  counted _ := rfl

theorem Waiting.keeps (waiting : Waiting config base stored benchmark) :
    Keeps stored (benchmark.pending.lookup base) := by
  rcases waiting.pending with ⟨nothing, empty⟩ | ⟨pending, gathers, alone⟩
  · rw [empty]
    exact nothing
  · rw [alone, AList.lookup_insert]
    exact gathers

/-- The judged counters do not see that an event was observed. -/
theorem judged_observed (coin otherCoin : String) (provider other : Provider) :
    judged ((benchmark.bump coin provider { observed := 1 }).counters otherCoin other) =
      judged (benchmark.counters otherCoin other) := by
  have unjudged : judged { observed := 1 } = 0 := rfl
  rw [bump_counters, map_add, apply_ite judged, unjudged, map_zero, ite_self, add_zero]

theorem Waiting.bumpObserved (waiting : Waiting config base stored benchmark) (coin : String)
    (provider : Provider) :
    Waiting config base stored (benchmark.bump coin provider { observed := 1 }) where
  sameConfig := waiting.sameConfig
  pending := waiting.pending
  unsealed := waiting.unsealed
  unmarked := waiting.unmarked
  cohorts := waiting.cohorts
  coverage := waiting.coverage
  counted other := (judged_observed coin base.coin provider other).trans (waiting.counted other)

theorem Shut.bumpObserved (shut : Shut config base stored pending sealedAt rest benchmark)
    (coin : String) (provider : Provider) :
    Shut config base stored pending sealedAt rest
      (benchmark.bump coin provider { observed := 1 }) where
  sameConfig := shut.sameConfig
  idle := shut.idle
  isSealed := shut.isSealed
  marked := shut.marked
  cohorts := shut.cohorts
  coverage := shut.coverage
  counted other := (judged_observed coin base.coin provider other).trans (shut.counted other)

/-- Sealing the waiting base gives its verdict. -/
theorem Waiting.settle (order : IterationOrder) (waiting : Waiting config base stored benchmark)
    (alone : benchmark.pending = (∅ : HashMap BaseKey PendingBase).insert base pending)
    (gathers : Gathers stored pending)
    (few : (stored.map fun event => event.key.content).toFinset.card ≤ config.maxRollingCohorts)
    (now : Nat) :
    Shut config base stored pending now [] (benchmark.settle order base now false) := by
  have found : benchmark.pending.lookup base = some pending := by
    rw [alone, AList.lookup_insert]
  have room : pending.candidates.entries.length ≤ benchmark.config.maxRollingCohorts := by
    rw [waiting.sameConfig]
    exact gathers.length_le.trans few
  constructor
  · rw [settle_config, waiting.sameConfig]
  · rw [settle_pending, alone]
    refine AList.ext ?_
    change List.kerase base ((∅ : HashMap BaseKey PendingBase).insert base pending).entries = []
    rw [AList.entries_insert_of_notMem (AList.notMem_empty base)]
    exact List.kerase_cons_eq rfl
  · rw [settle_settledBases order benchmark base now false found]
    exact insertSettledBase_mem order benchmark base now
  · intro key settled provider present marked
    obtain ⟨content, candidate, isStored, rfl, arrived⟩ :=
      marked_settle found waiting.unmarked present marked
    obtain ⟨observation, here⟩ := Option.isSome_iff_exists.mp arrived
    obtain ⟨event, member, sameProvider, _⟩ :=
      ((gathers.collects content candidate isStored).arrivals provider observation).mp here
    obtain ⟨inStored, sameContent⟩ := mem_ofContent.mp member
    exact ⟨event, inStored, sameProvider, sameContent⟩
  · rw [← waiting.sameConfig]
    exact cohorts_settle found waiting.cohorts room
  · rw [← waiting.sameConfig]
    exact coverage_settle found waiting.coverage room
  · intro provider
    rw [judged_settle found, waiting.counted, waiting.sameConfig, zero_add]
    exact (add_zero (sealedCounts config pending provider)).symm

/-! ## One event -/

theorem not_mem_pending_of_idle (idle : benchmark.pending = ∅) (base : BaseKey) :
    base ∉ benchmark.pending := by
  rw [idle]
  exact AList.notMem_empty base

theorem sealOverdue_of_idle (idle : benchmark.pending = ∅) (base : BaseKey) (received : Nat) :
    benchmark.sealOverdue order base received = benchmark := by
  unfold sealOverdue
  rw [idle]
  rfl

/-- An event whose key was not settled for its provider is late. -/
theorem recordSealed_of_unmarked (unmarked : ∀ settled,
    benchmark.settled.lookup event.key = some settled →
      ¬settled.matchedMask event.provider = true) :
    benchmark.recordSealed event =
      benchmark.bump event.key.coin event.provider { late := 1 } := by
  unfold recordSealed
  cases found : benchmark.settled.lookup event.key with
  | none => rfl
  | some settled =>
      dsimp only
      rw [if_neg (unmarked settled found)]

/-- An event of the sealed base comes too late. -/
theorem Shut.recordSealed (shut : Shut config base stored pending sealedAt rest benchmark)
    (own : event.key.base = base) (fresh : Fresh stored event) :
    Shut config base stored pending sealedAt (rest ++ [event]) (benchmark.recordSealed event) := by
  have late := recordSealed_of_unmarked
    fun settled found marked => by
      obtain ⟨other, member, sameProvider, sameContent⟩ :=
        shut.marked event.key settled event.provider found marked
      exact fresh other member sameProvider sameContent
  have counted : ∀ provider, judged ((benchmark.recordSealed event).counters base.coin provider) =
      judged (benchmark.counters base.coin provider) + lateCounts [event] provider := by
    intro provider
    rw [late, bump_counters, map_add, ← own]
    congr 1
    unfold lateCounts
    by_cases same : event.provider = provider
    · subst same
      rw [if_pos ⟨rfl, rfl⟩, List.countP_singleton, if_pos (decide_eq_true rfl)]
      rfl
    · rw [if_neg fun both => same both.2.symm, List.countP_singleton,
        if_neg (decide_eq_false same ▸ Bool.false_ne_true)]
      rfl
  rw [late] at counted ⊢
  refine ⟨shut.sameConfig, shut.idle, shut.isSealed, shut.marked, shut.cohorts, shut.coverage,
    fun provider => ?_⟩
  rw [counted, shut.counted, add_assoc]
  congr 1
  unfold lateCounts
  rw [List.countP_append]
  rfl

theorem Shut.recordAccepted (order : IterationOrder)
    (shut : Shut config base stored pending sealedAt rest benchmark)
    (own : event.key.base = base) (fresh : Fresh stored event) :
    Shut config base stored pending sealedAt (rest ++ [event])
      (benchmark.recordAccepted order event) := by
  have observed := shut.bumpObserved event.key.coin event.provider
  unfold Benchmark.recordAccepted
  dsimp only
  rw [sealOverdue_of_idle observed.idle, own, if_pos observed.isSealed]
  exact observed.recordSealed own fresh

/-- Among the events of one base, a new one goes in with room and no duplicate. -/
theorem Waiting.store (waiting : Waiting config base stored benchmark)
    (oneBase : OneBase config base (stored ++ [event])) (several : config.providers.length ≠ 1) :
    Waiting config base (stored ++ [event]) (benchmark.store order event) := by
  have own := oneBase.own event (List.mem_append_right _ (List.mem_singleton_self event))
  have keeps := waiting.keeps
  rw [← own] at keeps
  have notOne : ¬benchmark.config.providers.length = 1 := by
    rwa [waiting.sameConfig]
  rw [store_eq, if_neg (not_overflowing_of_few keeps oneBase.few),
    if_neg (not_hasArrival_of_fresh keeps oneBase.fresh), if_neg notOne]
  refine ⟨waiting.sameConfig, Or.inr ⟨_, gathers_heldBase keeps oneBase.fresh, ?_⟩,
    waiting.unsealed, waiting.unmarked, waiting.cohorts, waiting.coverage, waiting.counted⟩
  rw [withPending_pending, own]
  rcases waiting.pending with ⟨_, empty⟩ | ⟨pending, _, alone⟩
  · rw [empty]
  · rw [alone, AList.insert_insert]

/-- A waiting base never gives way to another. -/
theorem Waiting.makeRoom (waiting : Waiting config base stored benchmark) (received : Nat) :
    benchmark.makeRoom order base received = benchmark := by
  rcases makeRoom_cases order benchmark base received with same | ⟨oldest, absent, present, _⟩
  · exact same
  · rcases waiting.pending with ⟨_, empty⟩ | ⟨pending, _, alone⟩
    · exact absurd present (not_mem_pending_of_idle empty oldest)
    · exact absurd ((alone ▸ AList.mem_insert _).mpr (Or.inl rfl)) absent

/-- An event in time for all stored ones is stored. -/
theorem Waiting.recordAccepted_stores (order : IterationOrder)
    (waiting : Waiting config base stored benchmark)
    (oneBase : OneBase config base (stored ++ [event])) (several : config.providers.length ≠ 1)
    (inTime : ¬∃ first ∈ stored, config.cohortTimeout ≤ event.received - first.received) :
    Waiting config base (stored ++ [event]) (benchmark.recordAccepted order event) := by
  have own := oneBase.own event (List.mem_append_right _ (List.mem_singleton_self event))
  have observed := waiting.bumpObserved event.key.coin event.provider
  unfold Benchmark.recordAccepted
  dsimp only
  rw [own]
  rcases sealOverdue_cases order (benchmark.bump event.key.coin event.provider { observed := 1 })
    base event.received with ⟨still, _⟩ | ⟨pending, found, overdue, _⟩
  · rw [still, if_neg observed.unsealed, observed.makeRoom]
    exact observed.store oneBase several
  · have gathers : Gathers stored pending := by
      have keeps := observed.keeps
      rwa [found] at keeps
    rw [observed.sameConfig] at overdue
    exact absurd (gathers.earliest.le_sub_iff.mp overdue) inTime

/-- An event that comes a timeout after a stored one seals the base and is late itself. -/
theorem Waiting.recordAccepted_seals (order : IterationOrder)
    (waiting : Waiting config base stored benchmark)
    (oneBase : OneBase config base (stored ++ [event]))
    (roomy : maxSignaturesPerBase ≤ config.maxRollingCohorts)
    (overtaken : ∃ first ∈ stored, config.cohortTimeout ≤ event.received - first.received) :
    ∃ pending, Gathers stored pending ∧ Shut config base stored pending event.received [event]
      (benchmark.recordAccepted order event) := by
  have own := oneBase.own event (List.mem_append_right _ (List.mem_singleton_self event))
  have observed := waiting.bumpObserved event.key.coin event.provider
  rcases observed.pending with ⟨nothing, _⟩ | ⟨pending, gathers, alone⟩
  · obtain ⟨first, member, _⟩ := overtaken
    rw [nothing] at member
    exact absurd member List.not_mem_nil
  · refine ⟨pending, gathers, ?_⟩
    have found : (benchmark.bump event.key.coin event.provider { observed := 1 }).pending.lookup
        base = some pending := by
      rw [alone, AList.lookup_insert]
    have shut := observed.settle order alone gathers
      (oneBase.front.few.trans roomy) event.received
    unfold Benchmark.recordAccepted
    dsimp only
    rw [own]
    rcases sealOverdue_cases order
      (benchmark.bump event.key.coin event.provider { observed := 1 }) base event.received with
      ⟨_, inTime⟩ | ⟨_, _, _, settled⟩
    · have early := inTime pending found
      rw [observed.sameConfig] at early
      exact absurd (gathers.earliest.le_sub_iff.mpr overtaken) (Nat.not_le.mpr early)
    · rw [settled, if_pos shut.isSealed]
      exact shut.recordSealed own oneBase.fresh

/-! ## The events in a row -/

theorem step_record (order : IterationOrder) (sameConfig : benchmark.config = config)
    (oneBase : OneBase config base events) (member : event ∈ events) :
    benchmark.step (.record order (.market event)) =
      some (benchmark.recordAccepted order event) := by
  subst sameConfig
  refine recordMarket_of_accepted order benchmark ?_ (oneBase.accepted event member)
  have registered := oneBase.registered
  rwa [← oneBase.own event member] at registered

/-- Recorded past the seal, all events come too late. -/
theorem Shut.run {observations : List (IterationOrder × MarketEvent)}
    (shut : Shut config base stored pending sealedAt rest benchmark)
    (oneBase : OneBase config base (observations.map Prod.snd))
    (fresh : ∀ observation ∈ observations, Fresh stored observation.2) :
    ∃ final, Foundation.Runs.run step benchmark (observations.map observe) = some final ∧
      Shut config base stored pending sealedAt (rest ++ observations.map Prod.snd) final := by
  induction observations generalizing rest benchmark with
  | nil => exact ⟨benchmark, rfl, by rwa [List.map_nil, List.append_nil]⟩
  | cons observation later ih =>
      have head := List.mem_cons_self (a := observation.2) (l := later.map Prod.snd)
      have recorded := shut.recordAccepted observation.1
        (oneBase.own observation.2 head) (fresh observation List.mem_cons_self)
      have others : OneBase config base ([observation.2] ++ later.map Prod.snd) := oneBase
      obtain ⟨final, executed, after⟩ := ih recorded others.back
        fun other member => fresh other (List.mem_cons_of_mem _ member)
      refine ⟨final, ?_, ?_⟩
      · rw [List.map_cons, run_cons]
        have recorded := step_record observation.1 shut.sameConfig oneBase head
        exact Option.bind_eq_some_iff.mpr ⟨_, recorded, executed⟩
      · rwa [List.append_assoc] at after

/-- The state in which an order of the events leaves the base. -/
inductive Reached (config : BenchmarkConfig) (base : BaseKey)
    (cut : List MarketEvent × List MarketEvent) (final : Benchmark) : Prop where
  | waiting (nothing : cut.2 = []) (waits : Waiting config base cut.1 final)
  | shut (event : MarketEvent) (later : List MarketEvent) (first : cut.2 = event :: later)
      (pending : PendingBase) (gathers : Gathers cut.1 pending)
      (isShut : Shut config base cut.1 pending event.received cut.2 final)

/-- Events of several sources are stored up to the cut and come too late from there on. -/
theorem Waiting.run {observations : List (IterationOrder × MarketEvent)}
    (waiting : Waiting config base stored benchmark)
    (oneBase : OneBase config base (stored ++ observations.map Prod.snd))
    (several : config.providers.length ≠ 1)
    (roomy : maxSignaturesPerBase ≤ config.maxRollingCohorts) :
    ∃ final, Foundation.Runs.run step benchmark (observations.map observe) = some final ∧
      Reached config base (cutFrom config.cohortTimeout stored (observations.map Prod.snd))
        final := by
  induction observations generalizing stored benchmark with
  | nil => exact ⟨benchmark, rfl, .waiting rfl waiting⟩
  | cons observation later ih =>
      rw [List.map_cons] at oneBase
      have member : observation.2 ∈ stored ++ observation.2 :: later.map Prod.snd :=
        List.mem_append_right stored List.mem_cons_self
      have through : OneBase config base ((stored ++ [observation.2]) ++ later.map Prod.snd) := by
        rwa [List.append_assoc]
      have stepped := step_record observation.1 waiting.sameConfig oneBase member
      rw [List.map_cons, run_cons, List.map_cons, cutFrom]
      by_cases overtaken : ∃ first ∈ stored,
          config.cohortTimeout ≤ observation.2.received - first.received
      · obtain ⟨pending, gathers, shut⟩ :=
          waiting.recordAccepted_seals observation.1 through.front roomy overtaken
        obtain ⟨final, executed, after⟩ := shut.run through.back fun other isLater => by
          obtain ⟨front, back, split⟩ := List.append_of_mem (List.mem_map_of_mem
            (f := Prod.snd) isLater)
          have apart :
              OneBase config base (stored ++ other.2 :: (observation.2 :: front ++ back)) := by
            refine oneBase.perm (List.Perm.append_left stored ?_)
            have middle : ((observation.2 :: front) ++ other.2 :: back).Perm
                (other.2 :: ((observation.2 :: front) ++ back)) := List.perm_middle
            rw [split]
            exact middle.symm
          exact apart.fresh
        refine ⟨final, Option.bind_eq_some_iff.mpr ⟨_, stepped, executed⟩, ?_⟩
        have found : (stored.any fun first =>
            decide (config.cohortTimeout ≤ observation.2.received - first.received)) = true := by
          obtain ⟨first, isStored, passed⟩ := overtaken
          exact List.any_eq_true.mpr ⟨first, isStored, decide_eq_true passed⟩
        rw [if_pos found]
        exact .shut observation.2 (later.map Prod.snd) rfl pending gathers after
      · have inTime : ¬(stored.any fun first =>
            decide (config.cohortTimeout ≤ observation.2.received - first.received)) = true := by
          intro found
          obtain ⟨first, isStored, passed⟩ := List.any_eq_true.mp found
          exact overtaken ⟨first, isStored, of_decide_eq_true passed⟩
        obtain ⟨final, executed, reached⟩ := ih
          (waiting.recordAccepted_stores observation.1 through.front several overtaken)
          through
        rw [if_neg inTime]
        exact ⟨final, Option.bind_eq_some_iff.mpr ⟨_, stepped, executed⟩, reached⟩

/-- The first event of a single source seals the base. -/
theorem Waiting.recordAccepted_alone (order : IterationOrder)
    (waiting : Waiting config base [] benchmark)
    (oneBase : OneBase config base [event]) (single : config.providers = [event.provider])
    (roomy : maxSignaturesPerBase ≤ config.maxRollingCohorts) :
    Gathers [event] (loneBase event) ∧ Shut config base [event] (loneBase event) event.received []
      (benchmark.recordAccepted order event) := by
  have own := oneBase.own event (List.mem_singleton_self event)
  have nothing : benchmark.pending = ∅ := by
    rcases waiting.pending with ⟨_, empty⟩ | ⟨pending, gathers, _⟩
    · exact empty
    · obtain ⟨_, member, _⟩ := gathers.earliest.exists_eq
      exact absurd member List.not_mem_nil
  have keeps := waiting.keeps
  rw [← own] at keeps
  have fresh : Fresh [] event := fun _ member => absurd member List.not_mem_nil
  have gathers := gathers_heldBase keeps fresh
  rw [heldBase_of_absent (not_mem_pending_of_idle nothing _)] at gathers
  refine ⟨gathers, ?_⟩
  rw [recordAccepted_single (by rw [waiting.sameConfig, single])
    (not_mem_pending_of_idle nothing), own, if_neg waiting.unsealed]
  have observed := waiting.bumpObserved event.key.coin event.provider
  have held : Waiting config base [event] (benchmark.holding event) :=
    { sameConfig := observed.sameConfig
      pending := Or.inr ⟨loneBase event, gathers, by
        unfold holding
        rw [withPending_pending, bump_pending, nothing, own]⟩
      unsealed := observed.unsealed
      unmarked := observed.unmarked
      cohorts := observed.cohorts
      coverage := observed.coverage
      counted := observed.counted }
  refine held.settle order ?_ gathers (oneBase.few.trans roomy) event.received
  unfold holding
  rw [withPending_pending, bump_pending, nothing, own]

/-! ## The tick -/

/-- Pruning leaves the verdict. -/
theorem Shut.admission_prune
    (shut : Shut config base stored pending sealedAt rest benchmark) (tickAt : Nat) :
    (benchmark.prune tickAt).admission base.coin =
      verdict config base pending sealedAt tickAt rest := by
  obtain rfl := shut.sameConfig
  refine Admission.ext ?_ ?_ ?_
  · refine Multiset.coe_eq_coe.mpr (List.Perm.trans ?_ (shut.cohorts.filter _))
    rw [List.filter_map]
    exact List.Perm.refl _
  · exact Multiset.coe_eq_coe.mpr ((shut.coverage.filter _).map _)
  · funext provider
    exact shut.counted provider

/-- With nothing pending a tick only prunes. -/
theorem tick_of_idle (idle : benchmark.pending = ∅) (order : IterationOrder) (tickAt : Nat) :
    benchmark.tick order tickAt = benchmark.prune tickAt := by
  have quiet : benchmark.expired order tickAt = [] := by
    refine List.eq_nil_iff_forall_not_mem.mpr fun key member => ?_
    obtain ⟨pending, found, _⟩ := (mem_expired order benchmark).mp member
    exact not_mem_pending_of_idle idle key (HashMap.mem_of_lookup found)
  unfold tick
  rw [quiet]
  rfl

theorem Shut.admission_tick
    (shut : Shut config base stored pending sealedAt rest benchmark) (order : IterationOrder)
    (tickAt : Nat) :
    (benchmark.tick order tickAt).admission base.coin =
      verdict config base pending sealedAt tickAt rest := by
  rw [tick_of_idle shut.idle]
  exact shut.admission_prune tickAt

/-- The tick seals a waiting base. -/
theorem Waiting.admission_tick (order : IterationOrder)
    (waiting : Waiting config base stored benchmark)
    (gathered : stored ≠ [])
    (few : (stored.map fun event => event.key.content).toFinset.card ≤ config.maxRollingCohorts)
    (passed : ∀ event ∈ stored, config.cohortTimeout ≤ tickAt - event.received) :
    ∃ pending, Gathers stored pending ∧ (benchmark.tick order tickAt).admission base.coin =
      verdict config base pending tickAt tickAt [] := by
  rcases waiting.pending with ⟨nothing, _⟩ | ⟨pending, gathers, alone⟩
  · exact absurd nothing gathered
  · have shut := waiting.settle order alone gathers few tickAt
    have overdue : config.cohortTimeout ≤ tickAt - pending.firstObserved := by
      obtain ⟨event, member, same⟩ := gathers.earliest.exists_eq
      rw [← same]
      exact passed event member
    have entries : benchmark.pending.entries = [⟨base, pending⟩] := by
      rw [alone]
      exact AList.entries_insert_of_notMem (AList.notMem_empty base)
    have due : benchmark.expired order tickAt = [base] := by
      unfold expired
      rw [entries, List.perm_singleton.mp (order.perm [_]), waiting.sameConfig]
      exact congrArg (List.map Sigma.fst) (List.filter_cons_of_pos (decide_eq_true overdue))
    refine ⟨pending, gathers, ?_⟩
    unfold tick
    rw [due]
    exact shut.admission_prune tickAt

end Benchmark

end MarketBenchmark
