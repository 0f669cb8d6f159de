import MarketBenchmark.Benchmark.OneBase

/-!
# Verdicts on at most one arrival

What a sealed base admits depends on the stored events that were in time.  When
a single one was, the verdict can be written down: it is matched or orphaned,
every other event is late, and the base leaves at most one sample.  When none
was, all events are late.
-/

namespace MarketBenchmark

open Foundation.HashMaps Foundation.TimedRing Foundation.Runs ProviderCounters

namespace Benchmark

variable {config : BenchmarkConfig} {base : BaseKey} {stored rest : List MarketEvent}
  {event lone : MarketEvent} {pending : PendingBase} {sealedAt tickAt : Nat}
  {content : ContentKey} {candidate : PendingCandidate} {provider : Provider}

/-- The event came before the deadline of the base. -/
def InTime (config : BenchmarkConfig) (pending : PendingBase) (event : MarketEvent) : Prop :=
  event.received - pending.firstObserved < config.cohortTimeout

/-- The candidate as the settlement sees it. -/
def kept (config : BenchmarkConfig) (pending : PendingBase) (candidate : PendingCandidate) :
    PendingCandidate :=
  candidate.withoutLate config.providers pending.firstObserved config.cohortTimeout

/-- The kept arrivals of active providers are the stored events in time. -/
theorem arrivals_kept_iff (gathers : Gathers stored pending)
    (found : pending.candidates.lookup content = some candidate)
    (active : provider ∈ config.providers) {observation : Observation} :
    (kept config pending candidate).arrivals provider = some observation ↔
      ∃ event ∈ stored, event.key.content = content ∧ event.provider = provider ∧
        observationOf event = observation ∧ InTime config pending event := by
  have collects := gathers.collects content candidate found
  constructor
  · intro arrived
    obtain ⟨wasStored, timely⟩ := arrivals_withoutLate active arrived
    obtain ⟨event, own, sameProvider, rfl⟩ := (collects.arrivals provider observation).mp wasStored
    obtain ⟨member, sameContent⟩ := mem_ofContent.mp own
    exact ⟨event, member, sameContent, sameProvider, rfl, timely⟩
  · rintro ⟨event, member, sameContent, sameProvider, rfl, timely⟩
    have arrived := (collects.arrivals provider (observationOf event)).mpr
      ⟨event, mem_ofContent.mpr ⟨member, sameContent⟩, sameProvider, rfl⟩
    have notLate : ¬(provider ∈ config.providers ∧ candidate.arrivedAfterDeadline
        pending.firstObserved config.cohortTimeout provider = true) := by
      rintro ⟨_, late⟩
      unfold PendingCandidate.arrivedAfterDeadline at late
      rw [arrived] at late
      exact Nat.not_le.mpr timely (of_decide_eq_true late)
    exact (if_neg notLate).trans arrived

/-! ## The counters of late arrivals -/

theorem sum_late (passed : Sigma (fun _ : ContentKey => PendingCandidate) → Bool)
    (entries : List (Sigma fun _ : ContentKey => PendingCandidate)) :
    (entries.map fun entry => if passed entry then ({ late := 1 } : ProviderCounters) else 0).sum =
      { late := entries.countP passed } := by
  induction entries with
  | nil => rfl
  | cons entry entries ih =>
      rw [List.map_cons, List.sum_cons, ih, List.countP_cons]
      by_cases late : passed entry = true
      · rw [if_pos late, if_pos late, Nat.add_comm]
        rfl
      · rw [if_neg late, if_neg late, zero_add, Nat.add_zero]

/-- What the kept part of a candidate adds to the counters of an active provider. -/
def keptIncrement (config : BenchmarkConfig) (seen : Provider → Bool)
    (candidate : PendingCandidate) (provider : Provider) : ProviderCounters :=
  if candidate.isReference config then (outcomeOf candidate seen provider).increment
  else if candidate.hasArrival provider then { orphaned := 1 } else 0

theorem judged_settledIncrement (seen : Provider → Bool) :
    judged (settledIncrement config pending.firstObserved seen candidate provider) =
      (if (candidate.arrivals provider).any fun observation =>
          decide (config.cohortTimeout ≤ observation.received - pending.firstObserved) then
        { late := 1 } else 0) +
      keptIncrement config seen (kept config pending candidate) provider := by
  have late : candidate.arrivedAfterDeadline pending.firstObserved config.cohortTimeout provider =
      (candidate.arrivals provider).any fun observation =>
        decide (config.cohortTimeout ≤ observation.received - pending.firstObserved) := by
    unfold PendingCandidate.arrivedAfterDeadline
    cases candidate.arrivals provider <;> rfl
  have ofKept : judged (keptIncrement config seen (kept config pending candidate) provider) =
      keptIncrement config seen (kept config pending candidate) provider := by
    unfold keptIncrement outcomeOf
    split_ifs <;> rfl
  have ofLate : ∀ passed : Bool, judged (if passed then { late := 1 } else 0) =
      if passed then { late := 1 } else 0 := by decide
  unfold settledIncrement
  dsimp only
  rw [map_add, late, ofLate]
  exact congrArg _ ofKept

/-- The judged counters are those of the late arrivals and those of the kept ones. -/
theorem sealedCounts_eq (gathers : Gathers stored pending)
    (distinct : (stored.map fun event => (event.provider, event.key.content)).Nodup)
    (active : provider ∈ config.providers) :
    sealedCounts config pending provider =
      { late := stored.countP fun event => decide (event.provider = provider) &&
          decide (config.cohortTimeout ≤ event.received - pending.firstObserved) } +
      (pending.candidates.entries.map fun entry =>
        keptIncrement config (seenElsewhere config pending) (kept config pending entry.2)
          provider).sum := by
  unfold sealedCounts
  rw [if_pos active]
  simp only [judged_settledIncrement]
  rw [List.sum_map_add, sum_late, gathers.countP_arrivals distinct]
  rfl

def lates : ProviderCounters →+ Nat where
  toFun := ProviderCounters.late
  map_zero' := rfl
  map_add' _ _ := rfl

theorem lates_keptIncrement (seen : Provider → Bool) (provider : Provider) :
    lates (keptIncrement config seen candidate provider) = 0 := by
  unfold keptIncrement outcomeOf
  split_ifs <;> rfl

/-- Late are the stored events past the deadline and all events past the seal. -/
theorem lates_verdict (gathers : Gathers stored pending) (oneBase : OneBase config base stored)
    (active : provider ∈ config.providers) :
    lates ((verdict config base pending sealedAt tickAt rest).counted provider) =
      (stored.countP fun event => decide (event.provider = provider) &&
        decide (config.cohortTimeout ≤ event.received - pending.firstObserved)) +
      rest.countP fun event => decide (event.provider = provider) := by
  have unkept : lates (pending.candidates.entries.map fun entry =>
      keptIncrement config (seenElsewhere config pending) (kept config pending entry.2)
        provider).sum = 0 := by
    rw [map_list_sum, List.map_map]
    refine List.sum_eq_zero fun late member => ?_
    obtain ⟨entry, _, rfl⟩ := List.mem_map.mp member
    exact lates_keptIncrement _ provider
  unfold verdict
  dsimp only
  rw [sealedCounts_eq gathers oneBase.distinct active, map_add, map_add, unkept, add_zero]
  rfl

/-! ## A single event in time -/

/-- An arrival of this provider alone makes its content canonical. -/
def Canonical (config : BenchmarkConfig) (event : MarketEvent) : Prop :=
  config.canonicalByAnyArrival = true ∨ event.provider = config.referenceProvider

instance (config : BenchmarkConfig) (event : MarketEvent) : Decidable (Canonical config event) :=
  inferInstanceAs (Decidable (_ ∨ _))

/-- Of the stored events, this one was in time and no other. -/
structure Lone (config : BenchmarkConfig) (stored : List MarketEvent) (pending : PendingBase)
    (lone : MarketEvent) : Prop where
  member : lone ∈ stored
  active : lone.provider ∈ config.providers
  inTime : InTime config pending lone
  others : ∀ event ∈ stored, InTime config pending event → event = lone

section LoneEvent

theorem hasArrival_kept_iff (gathers : Gathers stored pending)
    (isLone : Lone config stored pending lone)
    (found : pending.candidates.lookup content = some candidate)
    (active : provider ∈ config.providers) :
    (kept config pending candidate).hasArrival provider = true ↔
      content = lone.key.content ∧ provider = lone.provider := by
  unfold PendingCandidate.hasArrival
  rw [Option.isSome_iff_exists]
  constructor
  · rintro ⟨observation, arrived⟩
    obtain ⟨event, member, sameContent, sameProvider, _, timely⟩ :=
      (arrivals_kept_iff gathers found active).mp arrived
    cases isLone.others event member timely
    exact ⟨sameContent.symm, sameProvider.symm⟩
  · rintro ⟨rfl, rfl⟩
    exact ⟨observationOf lone, (arrivals_kept_iff gathers found active).mpr
      ⟨lone, isLone.member, rfl, rfl, rfl, isLone.inTime⟩⟩

theorem isReference_kept_iff (gathers : Gathers stored pending)
    (isLone : Lone config stored pending lone)
    (found : pending.candidates.lookup content = some candidate) :
    (kept config pending candidate).isReference config = true ↔
      content = lone.key.content ∧ Canonical config lone := by
  unfold PendingCandidate.isReference Canonical
  cases anyArrival : config.canonicalByAnyArrival with
  | true =>
      rw [if_pos rfl, List.any_eq_true]
      constructor
      · rintro ⟨provider, active, arrived⟩
        exact ⟨((hasArrival_kept_iff gathers isLone found active).mp arrived).1, Or.inl rfl⟩
      · rintro ⟨sameContent, _⟩
        exact ⟨lone.provider, isLone.active,
          (hasArrival_kept_iff gathers isLone found isLone.active).mpr ⟨sameContent, rfl⟩⟩
  | false =>
      rw [if_neg Bool.false_ne_true,
        hasArrival_kept_iff gathers isLone found config.referenceProvider_mem,
        or_iff_right Bool.false_ne_true]
      exact and_congr_right' eq_comm

/-- The candidate of the lone event. -/
theorem exists_candidate (gathers : Gathers stored pending)
    (isLone : Lone config stored pending lone) :
    ∃ candidate, pending.candidates.lookup lone.key.content = some candidate :=
  HashMap.exists_lookup_of_mem ((gathers.present _).mpr ⟨lone, isLone.member, rfl⟩)

theorem canonical_of_lone (gathers : Gathers stored pending)
    (isLone : Lone config stored pending lone)
    (found : pending.candidates.lookup lone.key.content = some candidate) :
    canonical .stored config pending =
      if Canonical config lone then [(lone.key.content, kept config pending candidate)]
      else [] := by
  have tested : ∀ entry ∈ pending.candidates.entries,
      (kept config pending entry.2).isReference config =
        (decide (entry.1 = lone.key.content) && decide (Canonical config lone)) := by
    rintro ⟨other, held⟩ entry
    rw [Bool.eq_iff_iff, isReference_kept_iff gathers isLone (HashMap.mem_entries_iff.mp entry),
      Bool.and_eq_true, decide_eq_true_eq, decide_eq_true_eq]
  have filtered : canonical .stored config pending =
      (pending.candidates.entries.filter fun entry =>
        decide (entry.1 = lone.key.content) && decide (Canonical config lone)).map
          fun entry => (entry.1, kept config pending entry.2) := by
    unfold canonical admitted
    rw [List.filter_map]
    exact congrArg _ (List.filter_congr tested)
  rw [filtered]
  by_cases canonicalHere : Canonical config lone
  · simp only [canonicalHere, decide_true, Bool.and_true, if_true,
      HashMap.filter_entries_of_key found, List.map_cons, List.map_nil]
  · simp only [canonicalHere, decide_false, Bool.and_false, if_false, List.filter_false,
      List.map_nil]

/-- Where the lone event is canonical, nothing was seen elsewhere. -/
theorem seenElsewhere_of_lone (gathers : Gathers stored pending)
    (isLone : Lone config stored pending lone) (canonicalHere : Canonical config lone)
    (provider : Provider) : seenElsewhere config pending provider = false := by
  unfold seenElsewhere noncanonicalSeen
  by_contra seen
  rw [Bool.not_eq_false, Bool.and_eq_true, decide_eq_true_eq, List.any_eq_true] at seen
  obtain ⟨active, ⟨other, shown⟩, member, both⟩ := seen
  rw [Bool.and_eq_true, Bool.not_eq_true'] at both
  obtain ⟨held, found, rfl⟩ := mem_admitted .stored member
  have here := (hasArrival_kept_iff gathers isLone found active).mp both.2
  have reference := (isReference_kept_iff gathers isLone found).mpr ⟨here.1, canonicalHere⟩
  exact Bool.false_ne_true (both.1.symm.trans reference)

/-- A single arrival is complete where a single source is compared. -/
theorem complete_kept_iff (gathers : Gathers stored pending)
    (isLone : Lone config stored pending lone)
    (found : pending.candidates.lookup lone.key.content = some candidate) :
    (kept config pending candidate).complete config.providers = true ↔
      config.providers = [lone.provider] := by
  unfold PendingCandidate.complete
  rw [List.all_eq_true]
  constructor
  · intro all
    have same : ∀ provider ∈ config.providers, provider = lone.provider := fun provider active =>
      ((hasArrival_kept_iff gathers isLone found active).mp (all provider active)).2
    refine List.perm_singleton.mp ?_
    refine (List.perm_ext_iff_of_nodup config.providers_nodup (List.nodup_singleton _)).mpr ?_
    intro provider
    rw [List.mem_singleton]
    constructor
    · exact same provider
    · rintro rfl
      exact isLone.active
  · intro single provider active
    rw [single, List.mem_singleton] at active
    exact (hasArrival_kept_iff gathers isLone found (active ▸ isLone.active)).mpr ⟨rfl, active⟩

/-! ## The verdict on a single event in time -/

/-- What the lone event adds to the counters of an active provider. -/
def loneIncrement (config : BenchmarkConfig) (lone : MarketEvent) (provider : Provider) :
    ProviderCounters :=
  if Canonical config lone then
    if provider = lone.provider then { matched := 1 } else { missing := 1 }
  else if provider = lone.provider then { orphaned := 1 } else 0

/-- The events of a provider without the lone one, each of them late. -/
def lateBeside (lone : MarketEvent) (events : List MarketEvent) (provider : Provider) :
    ProviderCounters :=
  { late := (events.countP fun event => decide (event.provider = provider)) -
      if provider = lone.provider then 1 else 0 }

def loneVerdict (config : BenchmarkConfig) (base : BaseKey) (lone : MarketEvent)
    (sealedAt tickAt : Nat) (events : List MarketEvent) : Admission where
  cohorts :=
    if Canonical config lone ∧ config.providers = [lone.provider] ∧
        tickAt - lone.received ≤ config.rollingWindow then
      {(lone.received, fun provider =>
        if provider ∈ config.providers then lone.receivedWallMs - base.eventMs else 0)}
    else 0
  coverage :=
    if Canonical config lone ∧ tickAt - sealedAt ≤ config.rollingWindow then
      {fun provider => if provider = lone.provider then .matched else .missing}
    else 0
  counted provider :=
    (if provider ∈ config.providers then loneIncrement config lone provider else 0) +
      lateBeside lone events provider

theorem lates_loneVerdict (lone : MarketEvent) (events : List MarketEvent)
    (provider : Provider) :
    lates ((loneVerdict config base lone sealedAt tickAt events).counted provider) =
      (events.countP fun event => decide (event.provider = provider)) -
        if provider = lone.provider then 1 else 0 := by
  unfold loneVerdict loneIncrement
  dsimp only
  rw [map_add]
  refine Nat.add_eq_right.mpr ?_
  split_ifs <;> rfl

theorem sum_keptIncrement_of_lone (gathers : Gathers stored pending)
    (isLone : Lone config stored pending lone) (active : provider ∈ config.providers) :
    (pending.candidates.entries.map fun entry =>
      keptIncrement config (seenElsewhere config pending) (kept config pending entry.2)
        provider).sum = loneIncrement config lone provider := by
  obtain ⟨candidate, found⟩ := exists_candidate gathers isLone
  have arrived := hasArrival_kept_iff gathers isLone found active
  have reference := isReference_kept_iff gathers isLone found
  rw [and_iff_right rfl] at arrived reference
  refine (HashMap.sum_entries_of_key found (fun _ held => keptIncrement config
    (seenElsewhere config pending) (kept config pending held) provider) ?_).trans ?_
  · intro other held otherFound different
    unfold keptIncrement
    rw [if_neg fun both => different
        ((isReference_kept_iff gathers isLone otherFound).mp both).1,
      if_neg fun both => different
        ((hasArrival_kept_iff gathers isLone otherFound active).mp both).1]
  · unfold keptIncrement loneIncrement outcomeOf
    by_cases canonicalHere : Canonical config lone
    · rw [if_pos (reference.mpr canonicalHere), if_pos canonicalHere,
        seenElsewhere_of_lone gathers isLone canonicalHere, if_neg Bool.false_ne_true]
      by_cases own : provider = lone.provider
      · rw [if_pos (arrived.mpr own), if_pos own]
        rfl
      · rw [if_neg (mt arrived.mp own), if_neg own]
        rfl
    · rw [if_neg (mt reference.mp canonicalHere), if_neg canonicalHere]
      exact if_congr arrived rfl rfl

/-- All stored events but the lone one are late. -/
theorem countP_late_of_lone (isLone : Lone config stored pending lone) (nodup : stored.Nodup)
    (provider : Provider) :
    (stored.countP fun event => decide (event.provider = provider) &&
        decide (config.cohortTimeout ≤ event.received - pending.firstObserved)) +
      (if provider = lone.provider then 1 else 0) =
      stored.countP fun event => decide (event.provider = provider) := by
  obtain ⟨front, back, rfl⟩ := List.append_of_mem isLone.member
  have apart := List.nodup_middle.mp nodup
  have late : ∀ event ∈ front ++ back,
      (decide (event.provider = provider) &&
        decide (config.cohortTimeout ≤ event.received - pending.firstObserved)) =
        decide (event.provider = provider) := by
    intro event member
    have passed : config.cohortTimeout ≤ event.received - pending.firstObserved := by
      by_contra timely
      have stored : event ∈ front ++ lone :: back :=
        List.perm_middle.mem_iff.mpr (List.mem_cons_of_mem lone member)
      have same := isLone.others event stored (Nat.lt_of_not_le timely)
      rw [same] at member
      exact (List.nodup_cons.mp apart).1 member
    rw [decide_eq_true passed, Bool.and_true]
  have inTime : decide (config.cohortTimeout ≤ lone.received - pending.firstObserved) = false :=
    decide_eq_false (Nat.not_le.mpr isLone.inTime)
  have middle : (front ++ lone :: back).Perm (lone :: (front ++ back)) := List.perm_middle
  rw [middle.countP_eq, middle.countP_eq,
    List.countP_cons, List.countP_cons, inTime, Bool.and_false,
    List.countP_congr fun event member => by rw [late event member]]
  rw [if_neg Bool.false_ne_true, Nat.add_zero]
  congr 1
  exact if_congr (by rw [decide_eq_true_eq]; exact eq_comm) rfl rfl

theorem latestArrival_kept_of_lone (gathers : Gathers stored pending)
    (isLone : Lone config stored pending lone)
    (found : pending.candidates.lookup lone.key.content = some candidate)
    (single : config.providers = [lone.provider]) :
    (kept config pending candidate).latestArrival config.providers = lone.received := by
  have arrived := (arrivals_kept_iff gathers found isLone.active).mpr
    ⟨lone, isLone.member, rfl, rfl, rfl, isLone.inTime⟩
  unfold PendingCandidate.latestArrival
  rw [single, List.filterMap_cons_some arrived]
  exact Nat.max_zero _

theorem latencyRow_kept_of_lone (gathers : Gathers stored pending)
    (isLone : Lone config stored pending lone)
    (found : pending.candidates.lookup lone.key.content = some candidate)
    (single : config.providers = [lone.provider]) (eventMs : Nat) :
    latencyRow config (kept config pending candidate) eventMs = fun provider =>
      if provider ∈ config.providers then lone.receivedWallMs - eventMs else 0 := by
  have arrived := (arrivals_kept_iff gathers found isLone.active).mpr
    ⟨lone, isLone.member, rfl, rfl, rfl, isLone.inTime⟩
  funext provider
  unfold latencyRow
  by_cases active : provider ∈ config.providers
  · rw [if_pos active, if_pos active]
    rw [single, List.mem_singleton] at active
    rw [active, arrived]
    rfl
  · rw [if_neg active, if_neg active]

theorem sealedCohorts_of_lone (gathers : Gathers stored pending)
    (isLone : Lone config stored pending lone) :
    sealedCohorts config base pending =
      if Canonical config lone ∧ config.providers = [lone.provider] then
        [(lone.received, fun provider =>
          if provider ∈ config.providers then lone.receivedWallMs - base.eventMs else 0)]
      else [] := by
  obtain ⟨candidate, found⟩ := exists_candidate gathers isLone
  have complete := complete_kept_iff gathers isLone found
  unfold sealedCohorts
  rw [canonical_of_lone gathers isLone found]
  by_cases canonicalHere : Canonical config lone
  · rw [if_pos canonicalHere]
    by_cases single : config.providers = [lone.provider]
    · rw [if_pos ⟨canonicalHere, single⟩, List.filter_singleton]
      dsimp only
      rw [complete.mpr single, cond_true, List.map_singleton,
        latestArrival_kept_of_lone gathers isLone found single,
        latencyRow_kept_of_lone gathers isLone found single]
    · rw [if_neg fun both => single both.2, List.filter_singleton]
      dsimp only
      rw [Bool.eq_false_iff.mpr (mt complete.mp single)]
      rfl
  · rw [if_neg canonicalHere, if_neg fun both => canonicalHere both.1]
    rfl

theorem sealedCoverage_of_lone (base : BaseKey) (gathers : Gathers stored pending)
    (isLone : Lone config stored pending lone)
    (onArrival : config.providers = [lone.provider] → sealedAt = lone.received) :
    (sealedCoverage config base pending sealedAt).map
        (fun entry => (entry.settledAt, entry.outcomes)) =
      if Canonical config lone then
        [(sealedAt, fun provider =>
          if provider = lone.provider then .matched else .missing)]
      else [] := by
  obtain ⟨candidate, found⟩ := exists_candidate gathers isLone
  unfold sealedCoverage
  rw [canonical_of_lone gathers isLone found]
  by_cases canonicalHere : Canonical config lone
  · rw [if_pos canonicalHere, if_pos canonicalHere, List.map_singleton, List.map_singleton]
    have stamp : sampleStamp config (kept config pending candidate) sealedAt = sealedAt := by
      unfold sampleStamp
      split
      · next complete =>
          have single := (complete_kept_iff gathers isLone found).mp complete
          rw [latestArrival_kept_of_lone gathers isLone found single, onArrival single]
      · rfl
    have outcomes : ∀ provider, (if provider ∈ config.providers then
        outcomeOf (kept config pending candidate) (seenElsewhere config pending) provider
        else .missing) =
        if provider = lone.provider then CoverageOutcome.matched else .missing := by
      intro provider
      by_cases active : provider ∈ config.providers
      · have arrived := hasArrival_kept_iff gathers isLone found active
        rw [and_iff_right rfl] at arrived
        rw [if_pos active]
        unfold outcomeOf
        rw [seenElsewhere_of_lone gathers isLone canonicalHere, if_neg Bool.false_ne_true]
        exact if_congr arrived rfl rfl
      · have different : provider ≠ lone.provider := fun same => active (same ▸ isLone.active)
        rw [if_neg active, if_neg different]
    exact congrArg (fun entry => [entry]) (Prod.ext stamp (funext outcomes))
  · rw [if_neg canonicalHere, if_neg canonicalHere]
    rfl

/-- The verdict on a base of whose events a single one was in time. -/
theorem verdict_of_lone (gathers : Gathers stored pending)
    (isLone : Lone config stored pending lone) (oneBase : OneBase config base stored)
    (onArrival : config.providers = [lone.provider] → sealedAt = lone.received) :
    verdict config base pending sealedAt tickAt rest =
      loneVerdict config base lone sealedAt tickAt (stored ++ rest) := by
  refine Admission.ext ?_ ?_ ?_
  · unfold verdict loneVerdict
    dsimp only
    rw [sealedCohorts_of_lone gathers isLone]
    by_cases sampled : Canonical config lone ∧ config.providers = [lone.provider]
    · rw [if_pos sampled, List.filter_singleton]
      by_cases recent : tickAt - lone.received ≤ config.rollingWindow
      · rw [if_pos ⟨sampled.1, sampled.2, recent⟩, decide_eq_true recent]
        rfl
      · rw [if_neg fun all => recent all.2.2, decide_eq_false recent]
        rfl
    · rw [if_neg sampled, if_neg fun all => sampled ⟨all.1, all.2.1⟩]
      rfl
  · have entries := sealedCoverage_of_lone base gathers isLone onArrival
    have split : ((sealedCoverage config base pending sealedAt).filter fun entry =>
        decide (tickAt - entry.settledAt ≤ config.rollingWindow)).map CoverageCohort.outcomes =
        (((sealedCoverage config base pending sealedAt).map fun entry =>
          (entry.settledAt, entry.outcomes)).filter fun entry =>
            decide (tickAt - entry.1 ≤ config.rollingWindow)).map Prod.snd := by
      rw [List.filter_map, List.map_map]
      rfl
    unfold verdict loneVerdict
    dsimp only
    rw [split, entries]
    by_cases canonicalHere : Canonical config lone
    · rw [if_pos canonicalHere, List.filter_singleton]
      by_cases recent : tickAt - sealedAt ≤ config.rollingWindow
      · rw [if_pos ⟨canonicalHere, recent⟩, decide_eq_true recent]
        rfl
      · rw [if_neg fun both => recent both.2, decide_eq_false recent]
        rfl
    · rw [if_neg canonicalHere, if_neg fun both => canonicalHere both.1]
      rfl
  · funext provider
    have nodup : stored.Nodup := oneBase.distinct.of_map
    have counted := countP_late_of_lone isLone nodup provider
    have late : ProviderCounters.mk 0 0 0 0 0 (stored.countP fun event =>
        decide (event.provider = provider) &&
          decide (config.cohortTimeout ≤ event.received - pending.firstObserved)) 0 0 0 0 0 0 0 0 +
        lateCounts rest provider = lateBeside lone (stored ++ rest) provider := by
      unfold lateCounts lateBeside
      rw [List.countP_append, ← counted, Nat.add_right_comm, Nat.add_sub_cancel]
      rfl
    unfold verdict loneVerdict
    dsimp only
    by_cases active : provider ∈ config.providers
    · rw [if_pos active, sealedCounts_eq gathers oneBase.distinct active,
        sum_keptIncrement_of_lone gathers isLone active, add_right_comm, late, add_comm]
    · have foreign : stored.countP (fun event => decide (event.provider = provider)) = 0 := by
        refine List.countP_eq_zero.mpr fun event member same => active ?_
        rw [← of_decide_eq_true same]
        exact (oneBase.accepted event member).active
      have different : provider ≠ lone.provider := fun same => active (same ▸ isLone.active)
      unfold sealedCounts lateCounts lateBeside
      rw [if_neg active, if_neg active, List.countP_append, foreign, if_neg different, Nat.zero_add,
        Nat.sub_zero]

end LoneEvent

/-! ## No event in time -/

/-- The verdict when every event is late. -/
def lateVerdict (events : List MarketEvent) : Admission where
  cohorts := 0
  coverage := 0
  counted := lateCounts events

/-- Without time before the deadline every event is late. -/
theorem verdict_of_untimed (gathers : Gathers stored pending) (oneBase : OneBase config base stored)
    (untimed : config.cohortTimeout = 0) :
    verdict config base pending sealedAt tickAt rest = lateVerdict (stored ++ rest) := by
  have never : ∀ event, ¬InTime config pending event := by
    intro event timely
    unfold InTime at timely
    rw [untimed] at timely
    exact Nat.not_lt_zero _ timely
  have empty : ∀ content candidate, pending.candidates.lookup content = some candidate →
      ∀ provider ∈ config.providers,
        ¬(kept config pending candidate).hasArrival provider = true := by
    intro content candidate found provider active arrived
    obtain ⟨observation, here⟩ := Option.isSome_iff_exists.mp arrived
    obtain ⟨event, _, _, _, _, timely⟩ := (arrivals_kept_iff gathers found active).mp here
    exact never event timely
  have unreferenced : ∀ content candidate, pending.candidates.lookup content = some candidate →
      ¬(kept config pending candidate).isReference config = true := by
    intro content candidate found reference
    unfold PendingCandidate.isReference at reference
    split at reference
    · obtain ⟨provider, active, arrived⟩ := List.any_eq_true.mp reference
      exact empty content candidate found provider active arrived
    · exact empty content candidate found _ config.referenceProvider_mem reference
  have nothing : canonical .stored config pending = [] := by
    refine List.filter_eq_nil_iff.mpr ?_
    rintro ⟨content, shown⟩ member
    obtain ⟨candidate, found, rfl⟩ := mem_admitted .stored member
    exact unreferenced content candidate found
  refine Admission.ext ?_ ?_ (funext fun provider => ?_)
  · unfold verdict sealedCohorts
    rw [nothing]
    rfl
  · unfold verdict sealedCoverage
    rw [nothing]
    rfl
  · unfold verdict lateVerdict
    dsimp only
    by_cases active : provider ∈ config.providers
    · have unkept : (pending.candidates.entries.map fun entry =>
          keptIncrement config (seenElsewhere config pending) (kept config pending entry.2)
            provider).sum = 0 := by
        refine List.sum_eq_zero fun increment member => ?_
        obtain ⟨⟨content, candidate⟩, entry, rfl⟩ := List.mem_map.mp member
        have found := HashMap.mem_entries_iff.mp entry
        unfold keptIncrement
        rw [if_neg (unreferenced content candidate found),
          if_neg (empty content candidate found provider active)]
      rw [sealedCounts_eq gathers oneBase.distinct active, unkept, add_zero]
      unfold lateCounts
      rw [List.countP_append, untimed]
      simp only [Nat.zero_le, decide_true, Bool.and_true]
      rfl
    · have foreign : stored.countP (fun event => decide (event.provider = provider)) = 0 := by
        refine List.countP_eq_zero.mpr fun event member same => active ?_
        rw [← of_decide_eq_true same]
        exact (oneBase.accepted event member).active
      unfold sealedCounts lateCounts
      rw [if_neg active, zero_add, List.countP_append, foreign, Nat.zero_add]

end Benchmark

end MarketBenchmark
