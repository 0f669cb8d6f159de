import MarketBenchmark.Benchmark.LoneArrivals

/-!
# Processing order and admission

The first observation of a base is corrected when an earlier receipt is
processed late, but a seal is not taken back: an event past the deadline of
what happens to be stored seals the base, and the events behind it in the queue
are late however early they were received.  The orders of one set of events
agree exactly when no event is that late, or when the base admits a single
event whichever order seals it.
-/

namespace MarketBenchmark

open Foundation.HashMaps Foundation.TimedRing Foundation.Runs ProviderCounters

namespace Benchmark

variable {config : BenchmarkConfig} {base : BaseKey} {startedAt startedWallMs tickAt : Nat}
  {events stored rest : List MarketEvent} {first later other : MarketEvent}
  {observations : List (IterationOrder × MarketEvent)} {tickOrder : IterationOrder}
  {pending : PendingBase}

/-! ## Where an order is cut -/

theorem cutFrom_append (cohortTimeout : Nat) (stored rest : List MarketEvent) :
    (cutFrom cohortTimeout stored rest).1 ++ (cutFrom cohortTimeout stored rest).2 =
      stored ++ rest := by
  induction rest generalizing stored with
  | nil => rfl
  | cons event rest ih =>
      rw [cutFrom]
      split
      · rfl
      · rw [ih, List.append_assoc]
        rfl

/-- The event at the cut comes a timeout after a stored one. -/
theorem overtaken_of_cutFrom {cohortTimeout : Nat} {event : MarketEvent}
    {late : List MarketEvent} (cut : (cutFrom cohortTimeout stored rest).2 = event :: late) :
    ∃ first ∈ (cutFrom cohortTimeout stored rest).1,
      cohortTimeout ≤ event.received - first.received := by
  induction rest generalizing stored with
  | nil => cases cut
  | cons head rest ih =>
      rw [cutFrom] at cut ⊢
      split at cut
      · next found =>
          cases cut
          rw [if_pos found]
          obtain ⟨first, member, passed⟩ := List.any_eq_true.mp found
          exact ⟨first, member, of_decide_eq_true passed⟩
      · next inTime =>
          rw [if_neg inTime]
          exact ih cut

/-- In a descending order no event comes later than a stored one. -/
theorem cutFrom_of_descending {cohortTimeout : Nat} (positive : 0 < cohortTimeout)
    (descending : (stored ++ rest).Pairwise fun earlier later =>
      later.received ≤ earlier.received) :
    cutFrom cohortTimeout stored rest = (stored ++ rest, []) := by
  induction rest generalizing stored with
  | nil => rw [cutFrom, List.append_nil]
  | cons event rest ih =>
      have inTime : ¬(stored.any fun first =>
          decide (cohortTimeout ≤ event.received - first.received)) = true := by
        intro found
        obtain ⟨first, member, passed⟩ := List.any_eq_true.mp found
        have below := (List.pairwise_append.mp descending).2.2 first member event
          List.mem_cons_self
        have waited := of_decide_eq_true passed
        omega
      rw [List.append_cons] at descending
      rw [cutFrom, if_neg inTime, ih descending, List.append_assoc]
      rfl

theorem cutFrom_first (cohortTimeout : Nat) (event : MarketEvent) (rest : List MarketEvent) :
    cutFrom cohortTimeout [] (event :: rest) = cutFrom cohortTimeout [event] rest := by
  rw [cutFrom, if_neg (by rw [List.any_nil]; exact Bool.false_ne_true)]
  rfl

/-! ## What an order of the events yields -/

/-- Recorded in this order, and followed by the tick, the events end with the admission. -/
def Yields (config : BenchmarkConfig) (base : BaseKey) (startedAt startedWallMs tickAt : Nat)
    (observations : List (IterationOrder × MarketEvent)) (tickOrder : IterationOrder)
    (admission : Admission) : Prop :=
  ∃ final, run step (Benchmark.new config startedAt startedWallMs)
      (observations.map observe ++ [.tick tickOrder tickAt]) = some final ∧
    final.admission base.coin = admission

/-- Every two orders of the events end with the same admission. -/
def OrderFree (config : BenchmarkConfig) (base : BaseKey)
    (startedAt startedWallMs tickAt : Nat) (events : List MarketEvent) : Prop :=
  ∀ first second : List (IterationOrder × MarketEvent),
    (first.map Prod.snd).Perm events → (second.map Prod.snd).Perm events →
    ∀ firstTick secondTick, ∃ admission,
      Yields config base startedAt startedWallMs tickAt first firstTick admission ∧
      Yields config base startedAt startedWallMs tickAt second secondTick admission

theorem Yields.unique {one two : Admission}
    (yieldsOne : Yields config base startedAt startedWallMs tickAt observations tickOrder one)
    (yieldsTwo : Yields config base startedAt startedWallMs tickAt observations tickOrder two) :
    one = two := by
  obtain ⟨final, executed, rfl⟩ := yieldsOne
  obtain ⟨same, executedSame, rfl⟩ := yieldsTwo
  cases Option.some.inj (executed.symm.trans executedSame)
  rfl

theorem yields_of_run {final : Benchmark} {admission : Admission}
    (executed : run step (Benchmark.new config startedAt startedWallMs)
      (observations.map observe) = some final)
    (ticked : (final.tick tickOrder tickAt).admission base.coin = admission) :
    Yields config base startedAt startedWallMs tickAt observations tickOrder admission :=
  ⟨final.tick tickOrder tickAt, run_concat_of_step executed rfl, ticked⟩

theorem yields_nil :
    Yields config base startedAt startedWallMs tickAt [] tickOrder (lateVerdict []) := by
  refine yields_of_run rfl ?_
  rw [tick_of_idle rfl]
  rfl

theorem single_of_length {provider : Provider} (one : config.providers.length = 1)
    (active : provider ∈ config.providers) : config.providers = [provider] := by
  obtain ⟨only, same⟩ := List.length_eq_one_iff.mp one
  rw [same, List.mem_singleton] at active
  rw [same, active]

theorem lateVerdict_perm {others : List MarketEvent} (same : others.Perm events) :
    lateVerdict others = lateVerdict events := by
  refine Admission.ext rfl rfl (funext fun provider => ?_)
  exact congrArg (fun late => ({ late := late } : ProviderCounters)) (same.countP_eq _)

section Orders

variable (startedAt startedWallMs tickAt : Nat) (tickOrder : IterationOrder)
  (roomy : maxSignaturesPerBase ≤ config.maxRollingCohorts)
include roomy

/-- Several sources: the base is sealed at the cut, or by the tick. -/
theorem yields_several (oneBase : OneBase config base (observations.map Prod.snd))
    (several : config.providers.length ≠ 1) (nonempty : observations ≠ [])
    (passed : ∀ event ∈ observations.map Prod.snd,
      config.cohortTimeout ≤ tickAt - event.received) :
    ∃ pending, Gathers (cutFrom config.cohortTimeout [] (observations.map Prod.snd)).1 pending ∧
      Yields config base startedAt startedWallMs tickAt observations tickOrder
        (verdict config base pending
          (sealTime tickAt (cutFrom config.cohortTimeout [] (observations.map Prod.snd)).2) tickAt
          (cutFrom config.cohortTimeout [] (observations.map Prod.snd)).2) := by
  obtain ⟨final, executed, reached⟩ := (Waiting.new config base startedAt startedWallMs).run
    oneBase several roomy
  have whole := cutFrom_append config.cohortTimeout [] (observations.map Prod.snd)
  generalize cut : cutFrom config.cohortTimeout [] (observations.map Prod.snd) = split at *
  cases reached with
  | waiting nothing waits =>
      rw [nothing, List.append_nil, List.nil_append] at whole
      rw [whole] at waits
      obtain ⟨pending, gathers, ticked⟩ := waits.admission_tick tickOrder
        (fun empty => nonempty (List.map_eq_nil_iff.mp empty)) (oneBase.few.trans roomy) passed
      rw [nothing, whole]
      exact ⟨pending, gathers, yields_of_run executed ticked⟩
  | shut event late isFirst pending gathers isShut =>
      refine ⟨pending, gathers, yields_of_run executed ?_⟩
      rw [isShut.admission_tick tickOrder, isFirst]
      rfl

/-- A single source: the base is sealed by its first event. -/
theorem yields_alone {observation : IterationOrder × MarketEvent}
    (oneBase : OneBase config base ((observation :: observations).map Prod.snd))
    (single : config.providers = [observation.2.provider]) :
    Gathers [observation.2] (loneBase observation.2) ∧
      Yields config base startedAt startedWallMs tickAt (observation :: observations) tickOrder
        (verdict config base (loneBase observation.2) observation.2.received tickAt
          (observations.map Prod.snd)) := by
  have fresh := Waiting.new config base startedAt startedWallMs
  have head : OneBase config base ([observation.2] ++ observations.map Prod.snd) := oneBase
  obtain ⟨gathers, shut⟩ := fresh.recordAccepted_alone observation.1 head.front single
    roomy
  obtain ⟨final, executed, after⟩ := shut.run head.back fun other member => by
    obtain ⟨front, back, split⟩ := List.append_of_mem (List.mem_map_of_mem (f := Prod.snd) member)
    have apart : OneBase config base ([observation.2] ++ other.2 :: (front ++ back)) := by
      refine oneBase.perm (List.Perm.cons observation.2 ?_)
      rw [split]
      exact List.perm_middle.symm
    exact apart.fresh
  refine ⟨gathers, yields_of_run ?_ (after.admission_tick tickOrder tickAt)⟩
  rw [List.map_cons, run_cons]
  exact Option.bind_eq_some_iff.mpr
    ⟨_, step_record observation.1 fresh.sameConfig oneBase List.mem_cons_self, executed⟩

/-- Without time before the deadline every order finds every event late. -/
theorem yields_untimed (untimed : config.cohortTimeout = 0)
    (oneBase : OneBase config base (observations.map Prod.snd)) :
    Yields config base startedAt startedWallMs tickAt observations tickOrder
      (lateVerdict (observations.map Prod.snd)) := by
  cases observations with
  | nil => exact yields_nil
  | cons observation observations =>
      by_cases several : config.providers.length ≠ 1
      · obtain ⟨pending, gathers, yields⟩ := yields_several startedAt startedWallMs
          tickAt tickOrder roomy oneBase several (List.cons_ne_nil _ _)
            fun _ _ => untimed ▸ Nat.zero_le _
        have whole := cutFrom_append config.cohortTimeout []
          ((observation :: observations).map Prod.snd)
        have front : OneBase config base (cutFrom config.cohortTimeout []
            ((observation :: observations).map Prod.snd)).1 := by
          rw [← List.nil_append (List.map Prod.snd _), ← whole] at oneBase
          exact oneBase.front
        rwa [verdict_of_untimed gathers front untimed, whole, List.nil_append] at yields
      · have single := single_of_length (not_not.mp several)
          (oneBase.accepted observation.2 List.mem_cons_self).active
        obtain ⟨gathers, yields⟩ := yields_alone startedAt startedWallMs tickAt
          tickOrder roomy oneBase single
        have head : OneBase config base ([observation.2] ++ observations.map Prod.snd) := oneBase
        rwa [verdict_of_untimed gathers head.front untimed] at yields

end Orders

/-! ## When the order does not matter -/

/-- The later event comes a timeout or more after the first. -/
structure Overtakes (config : BenchmarkConfig) (events : List MarketEvent)
    (first later : MarketEvent) : Prop where
  opens : first ∈ events
  comes : later ∈ events
  passed : config.cohortTimeout ≤ later.received - first.received

/-- Each event that is overtaken is the only one in time after itself, all of them have one
provider, and a sample that they leave is still in the window at the tick. -/
structure OneInTime (config : BenchmarkConfig) (events : List MarketEvent) (tickAt : Nat) :
    Prop where
  alone : ∀ first later other, Overtakes config events first later → other ∈ events →
    first.received ≤ other.received →
    other.received - first.received < config.cohortTimeout → other = first
  provider : ∀ first later other latest, Overtakes config events first later →
    Overtakes config events other latest → first.provider = other.provider
  recent : ∀ first later, Overtakes config events first later → Canonical config first →
    tickAt - later.received ≤ config.rollingWindow

/-- What a sample of one arrival shows at the tick. -/
def shown (config : BenchmarkConfig) (tickAt : Nat) (event : MarketEvent) : Option (Nat × Nat) :=
  if tickAt - event.received ≤ config.rollingWindow then
    some (event.received, event.receivedWallMs)
  else none

theorem loneVerdict_congr {lone twin : MarketEvent} {sealedAt otherAt : Nat}
    {others : List MarketEvent} (sameProvider : lone.provider = twin.provider)
    (sameEvents : events.Perm others)
    (sameShown : config.providers = [lone.provider] →
      shown config tickAt lone = shown config tickAt twin)
    (bothRecent : Canonical config lone →
      (tickAt - sealedAt ≤ config.rollingWindow ↔ tickAt - otherAt ≤ config.rollingWindow)) :
    loneVerdict config base lone sealedAt tickAt events =
      loneVerdict config base twin otherAt tickAt others := by
  have sameCanonical : Canonical config lone ↔ Canonical config twin := by
    unfold Canonical
    rw [sameProvider]
  refine Admission.ext ?_ ?_ (funext fun provider => ?_)
  · unfold loneVerdict
    dsimp only
    by_cases single : config.providers = [lone.provider]
    · have same := sameShown single
      unfold shown at same
      rw [sameProvider] at single
      by_cases recent : tickAt - lone.received ≤ config.rollingWindow
      · rw [if_pos recent] at same
        by_cases twinRecent : tickAt - twin.received ≤ config.rollingWindow
        · rw [if_pos twinRecent] at same
          obtain ⟨sameReceived, sameWall⟩ := Prod.mk.inj (Option.some.inj same)
          rw [sameReceived, sameWall, sameProvider]
          exact if_congr (and_congr_left' sameCanonical) rfl rfl
        · rw [if_neg twinRecent] at same
          cases same
      · rw [if_neg recent] at same
        by_cases twinRecent : tickAt - twin.received ≤ config.rollingWindow
        · rw [if_pos twinRecent] at same
          cases same
        · rw [if_neg fun all => recent all.2.2, if_neg fun all => twinRecent all.2.2]
    · rw [if_neg fun all => single all.2.1, if_neg fun all => single (sameProvider ▸ all.2.1)]
  · unfold loneVerdict
    dsimp only
    rw [sameProvider]
    refine if_congr ?_ rfl rfl
    rw [← sameCanonical]
    exact and_congr_right bothRecent
  · unfold loneVerdict loneIncrement lateBeside
    dsimp only
    rw [sameProvider, sameEvents.countP_eq]
    simp only [sameCanonical]

theorem recent_iff_of_shown {one two : MarketEvent}
    (same : shown config tickAt one = shown config tickAt two) :
    tickAt - one.received ≤ config.rollingWindow ↔
      tickAt - two.received ≤ config.rollingWindow := by
  unfold shown at same
  by_cases recent : tickAt - one.received ≤ config.rollingWindow
  · rw [if_pos recent] at same
    by_cases otherRecent : tickAt - two.received ≤ config.rollingWindow
    · exact iff_of_true recent otherRecent
    · rw [if_neg otherRecent] at same
      cases same
  · rw [if_neg recent] at same
    by_cases otherRecent : tickAt - two.received ≤ config.rollingWindow
    · rw [if_pos otherRecent] at same
      cases same
    · exact iff_of_false recent otherRecent

/-! ## Several sources -/

/-- Where each overtaken event is alone in time, an overtaken base admits one event. -/
theorem exists_lone
    (alone : ∀ first later other, Overtakes config events first later → other ∈ events →
      first.received ≤ other.received →
      other.received - first.received < config.cohortTimeout → other = first)
    (positive : 0 < config.cohortTimeout) (accepted : ∀ event ∈ events, Accepted config event)
    (sameStored : ∀ event ∈ stored, event ∈ events) (gathers : Gathers stored pending)
    (overtaken : ∃ first ∈ stored, ∃ later ∈ events,
      config.cohortTimeout ≤ later.received - first.received) :
    ∃ lone, Lone config stored pending lone ∧ ∀ first ∈ stored, ∀ later ∈ events,
      config.cohortTimeout ≤ later.received - first.received →
        Overtakes config events lone later := by
  obtain ⟨lone, member, same⟩ := gathers.earliest.exists_eq
  have overtakes : ∀ first ∈ stored, ∀ later ∈ events,
      config.cohortTimeout ≤ later.received - first.received →
        Overtakes config events lone later := by
    intro first isStored later isEvent passed
    have before := gathers.earliest.le isStored
    refine ⟨sameStored lone member, isEvent, Nat.le_trans passed ?_⟩
    rw [same]
    exact Nat.sub_le_sub_left before later.received
  obtain ⟨first, isStored, later, isEvent, passed⟩ := overtaken
  refine ⟨lone, ⟨member, (accepted lone (sameStored lone member)).active, ?_, ?_⟩, overtakes⟩
  · unfold InTime
    rw [same, Nat.sub_self]
    exact positive
  · intro event eventStored timely
    refine alone lone later event (overtakes first isStored later isEvent passed)
      (sameStored event eventStored) ?_ ?_
    · rw [same]
      exact gathers.earliest.le eventStored
    · rw [same]
      exact timely

/-- The events in this order, each recorded with the entries visited as they are stored. -/
def inOrder (events : List MarketEvent) : List (IterationOrder × MarketEvent) :=
  events.map fun event => (.stored, event)

theorem map_snd_inOrder (events : List MarketEvent) :
    (inOrder events).map Prod.snd = events := by
  unfold inOrder
  rw [List.map_map]
  exact List.map_id events

/-- An event that is overtaken can open an order, with the other right behind it. -/
theorem exists_opening (positive : 0 < config.cohortTimeout)
    (overtakes : Overtakes config events first later) :
    ∃ rest, (first :: later :: rest).Perm events := by
  have different : later ≠ first := by
    rintro rfl
    have passed := overtakes.passed
    omega
  have behind : later ∈ events.erase first := (List.mem_erase_of_ne different).mpr overtakes.comes
  refine ⟨(events.erase first).erase later, ?_⟩
  exact ((List.perm_cons_erase behind).symm.cons first).trans
    (List.perm_cons_erase overtakes.opens).symm

/-- A lone canonical sample is in the window whichever event seals its base. -/
theorem recent_sealTime (oneInTime : OneInTime config events tickAt)
    (overtakes : Overtakes config events first later) (canonicalHere : Canonical config first)
    {late : List MarketEvent} (atCut : ∀ event rest, late = event :: rest → later = event) :
    tickAt - sealTime tickAt late ≤ config.rollingWindow := by
  cases late with
  | nil =>
      rw [sealTime, Nat.sub_self]
      exact Nat.zero_le _
  | cons event rest =>
      rw [sealTime, ← atCut event rest rfl]
      exact oneInTime.recent first later overtakes canonicalHere

section Several

variable (startedAt startedWallMs : Nat) (tickOrder : IterationOrder)
  (roomy : maxSignaturesPerBase ≤ config.maxRollingCohorts)
  (oneBase : OneBase config base events) (several : config.providers.length ≠ 1)
  (positive : 0 < config.cohortTimeout)
  (afterAll : ∀ event ∈ events, event.received + config.cohortTimeout ≤ tickAt)
include roomy oneBase several positive afterAll

/-- An order in which an event is overtaken ends with the verdict on one event. -/
theorem yields_loneVerdict
    (alone : ∀ first later other, Overtakes config events first later → other ∈ events →
      first.received ≤ other.received →
      other.received - first.received < config.cohortTimeout → other = first)
    (overtakes : Overtakes config events first later)
    (order : (observations.map Prod.snd).Perm events) :
    ∃ lone latest, Overtakes config events lone latest ∧
      Yields config base startedAt startedWallMs tickAt observations tickOrder
        (loneVerdict config base lone (sealTime tickAt
          (cutFrom config.cohortTimeout [] (observations.map Prod.snd)).2) tickAt events) ∧
      ∀ event late, (cutFrom config.cohortTimeout [] (observations.map Prod.snd)).2 =
        event :: late → latest = event := by
  have ordered := oneBase.perm order
  have nonempty : observations ≠ [] := by
    rintro rfl
    exact List.not_mem_nil (order.mem_iff.mpr overtakes.opens)
  have passed : ∀ event ∈ observations.map Prod.snd,
      config.cohortTimeout ≤ tickAt - event.received := by
    intro event member
    have before := afterAll event (order.mem_iff.mp member)
    omega
  obtain ⟨pending, gathers, yields⟩ := yields_several startedAt startedWallMs tickAt tickOrder
    roomy ordered several nonempty passed
  have whole := cutFrom_append config.cohortTimeout [] (observations.map Prod.snd)
  have atCut : ∀ event late,
      (cutFrom config.cohortTimeout [] (observations.map Prod.snd)).2 = event :: late →
      ∃ first ∈ (cutFrom config.cohortTimeout [] (observations.map Prod.snd)).1,
        config.cohortTimeout ≤ event.received - first.received :=
    fun _ _ => overtaken_of_cutFrom
  generalize cutFrom config.cohortTimeout [] (observations.map Prod.snd) = cut at *
  rw [List.nil_append] at whole
  have members : ∀ event, event ∈ cut.1 ++ cut.2 ↔ event ∈ events := by
    intro event
    rw [whole]
    exact order.mem_iff
  have storedMembers : ∀ event ∈ cut.1, event ∈ events := fun event member =>
    (members event).mp (List.mem_append_left _ member)
  have firstStored : cut.2 = [] → ∀ event ∈ events, event ∈ cut.1 := by
    intro nothing event member
    have here := (members event).mpr member
    rwa [nothing, List.append_nil] at here
  have overtaken : ∃ old ∈ cut.1, ∃ latest ∈ events,
      config.cohortTimeout ≤ latest.received - old.received ∧
        ∀ event late, cut.2 = event :: late → latest = event := by
    cases isCut : cut.2 with
    | nil =>
        exact ⟨first, firstStored isCut first overtakes.opens, later, overtakes.comes,
          overtakes.passed, fun event late impossible => by cases impossible⟩
    | cons event late =>
        obtain ⟨old, isStored, waited⟩ := atCut event late isCut
        refine ⟨old, isStored, event, (members event).mp ?_, waited, ?_⟩
        · rw [isCut]
          exact List.mem_append_right _ List.mem_cons_self
        · rintro other rest ⟨⟩
          rfl
  obtain ⟨old, isStored, latest, isEvent, waited, isFirst⟩ := overtaken
  obtain ⟨lone, isLone, overtakesLone⟩ := exists_lone alone positive oneBase.accepted
    storedMembers gathers ⟨old, isStored, latest, isEvent, waited⟩
  rw [← whole] at ordered order
  have notSingle : config.providers ≠ [lone.provider] := by
    intro single
    exact several (congrArg List.length single)
  rw [verdict_of_lone gathers isLone ordered.front fun single => absurd single notSingle,
    loneVerdict_congr rfl order (fun single => absurd single notSingle) fun _ => Iff.rfl] at yields
  exact ⟨lone, latest, overtakesLone old isStored latest isEvent waited, yields, isFirst⟩

/-- When no event is overtaken, every order gathers all events until the tick. -/
theorem yields_all (never : ∀ first later, ¬Overtakes config events first later)
    (nonempty : events ≠ []) (order : (observations.map Prod.snd).Perm events) :
    ∃ pending, Gathers (observations.map Prod.snd) pending ∧
      Yields config base startedAt startedWallMs tickAt observations tickOrder
        (verdict config base pending tickAt tickAt []) := by
  have passed : ∀ event ∈ observations.map Prod.snd,
      config.cohortTimeout ≤ tickAt - event.received := by
    intro event member
    have before := afterAll event (order.mem_iff.mp member)
    omega
  have recorded : observations ≠ [] := by
    rintro rfl
    exact nonempty (List.Perm.nil_eq order).symm
  obtain ⟨pending, gathers, yields⟩ := yields_several startedAt startedWallMs tickAt tickOrder
    roomy (oneBase.perm order) several recorded passed
  have whole := cutFrom_append config.cohortTimeout [] (observations.map Prod.snd)
  have uncut : (cutFrom config.cohortTimeout [] (observations.map Prod.snd)).2 = [] := by
    cases isCut : (cutFrom config.cohortTimeout [] (observations.map Prod.snd)).2 with
    | nil => rfl
    | cons event late =>
        obtain ⟨first, member, waited⟩ := overtaken_of_cutFrom isCut
        rw [isCut] at whole
        have members := fun event => order.mem_iff (a := event)
        refine absurd ⟨(members first).mp ?_, (members event).mp ?_, waited⟩ (never first event)
        · rw [← List.nil_append (List.map Prod.snd _), ← whole]
          exact List.mem_append_left _ member
        · rw [← List.nil_append (List.map Prod.snd _), ← whole]
          exact List.mem_append_right _ List.mem_cons_self
  rw [uncut, List.append_nil, List.nil_append] at whole
  rw [whole] at gathers
  rw [uncut] at yields
  exact ⟨pending, gathers, yields⟩

theorem orderFree_of_oneInTime (oneInTime : OneInTime config events tickAt) :
    OrderFree config base startedAt startedWallMs tickAt events := by
  intro first second firstOrder secondOrder firstTick secondTick
  by_cases overtaken : ∃ early late, Overtakes config events early late
  · obtain ⟨early, late, overtakes⟩ := overtaken
    obtain ⟨lone, latest, overtakesLone, yields, atCut⟩ := yields_loneVerdict startedAt
      startedWallMs firstTick roomy oneBase several positive afterAll oneInTime.alone overtakes
      firstOrder
    obtain ⟨twin, last, overtakesTwin, yieldsTwin, atTwinCut⟩ := yields_loneVerdict startedAt
      startedWallMs secondTick roomy oneBase several positive afterAll oneInTime.alone overtakes
      secondOrder
    have sameProvider := oneInTime.provider lone latest twin last overtakesLone overtakesTwin
    have notSingle : config.providers ≠ [lone.provider] := fun single =>
      several (congrArg List.length single)
    refine ⟨_, yields, ?_⟩
    rw [loneVerdict_congr sameProvider (List.Perm.refl events)
      (fun single => absurd single notSingle)]
    · exact yieldsTwin
    · intro canonicalHere
      have canonicalTwin : Canonical config twin := by
        unfold Canonical at canonicalHere ⊢
        rwa [← sameProvider]
      exact iff_of_true
        (recent_sealTime oneInTime overtakesLone canonicalHere atCut)
        (recent_sealTime oneInTime overtakesTwin canonicalTwin atTwinCut)
  · have never : ∀ early late, ¬Overtakes config events early late :=
      fun early late overtakes => overtaken ⟨early, late, overtakes⟩
    cases events with
    | nil =>
        obtain rfl := List.map_eq_nil_iff.mp (List.Perm.eq_nil firstOrder)
        obtain rfl := List.map_eq_nil_iff.mp (List.Perm.eq_nil secondOrder)
        exact ⟨_, yields_nil, yields_nil⟩
    | cons event rest =>
        obtain ⟨pending, gathers, yields⟩ := yields_all startedAt startedWallMs firstTick roomy
          oneBase several positive afterAll never (List.cons_ne_nil event rest) firstOrder
        obtain ⟨other, otherGathers, yieldsOther⟩ := yields_all startedAt startedWallMs secondTick
          roomy oneBase several positive afterAll never (List.cons_ne_nil event rest) secondOrder
        have same : ∀ event, event ∈ first.map Prod.snd ↔ event ∈ second.map Prod.snd :=
          fun event => firstOrder.mem_iff.trans secondOrder.mem_iff.symm
        refine ⟨_, yields, ?_⟩
        rw [verdict_congr config (gathers.firstObserved_eq otherGathers same)
          (gathers.entries_perm otherGathers same) base tickAt tickAt (List.Perm.refl [])]
        exact yieldsOther

/-- Right after an event the one that overtakes it seals the base. -/
theorem yields_opening (overtakes : Overtakes config events first later)
    (order : (first :: later :: rest).Perm events) :
    Yields config base startedAt startedWallMs tickAt (inOrder (first :: later :: rest)) tickOrder
      (loneVerdict config base first later.received tickAt events) := by
  have ordered : OneBase config base ((inOrder (first :: later :: rest)).map Prod.snd) := by
    rw [map_snd_inOrder]
    exact oneBase.perm order
  have passed : ∀ event ∈ (inOrder (first :: later :: rest)).map Prod.snd,
      config.cohortTimeout ≤ tickAt - event.received := by
    intro event member
    rw [map_snd_inOrder] at member
    have before := afterAll event (order.mem_iff.mp member)
    omega
  have found : ([first].any fun old =>
      decide (config.cohortTimeout ≤ later.received - old.received)) = true := by
    rw [List.any_cons, decide_eq_true overtakes.passed, Bool.true_or]
  have isCut : cutFrom config.cohortTimeout [] (first :: later :: rest) =
      ([first], later :: rest) := by
    rw [cutFrom_first, cutFrom, if_pos found]
  obtain ⟨pending, gathers, yields⟩ := yields_several startedAt startedWallMs tickAt tickOrder
    roomy ordered several (List.cons_ne_nil _ _) passed
  rw [map_snd_inOrder, isCut] at gathers yields
  rw [map_snd_inOrder] at ordered
  have isLone : Lone config [first] pending first := by
    have observed : pending.firstObserved = first.received :=
      gathers.earliest.unique (Earliest.lone first) fun _ => Iff.rfl
    refine ⟨List.mem_singleton_self first, (oneBase.accepted first overtakes.opens).active, ?_,
      fun event member _ => List.mem_singleton.mp member⟩
    unfold InTime
    rw [observed, Nat.sub_self]
    exact positive
  have notSingle : config.providers ≠ [first.provider] := fun single =>
    several (congrArg List.length single)
  have head : OneBase config base ([first] ++ later :: rest) := ordered
  rw [verdict_of_lone gathers isLone head.front fun single => absurd single notSingle] at yields
  rwa [loneVerdict_congr rfl (show ([first] ++ later :: rest).Perm events from order)
    (fun single => absurd single notSingle) fun _ => Iff.rfl] at yields

/-- An event in time that is processed before the seal is not late. -/
theorem yields_opening_pair (overtakes : Overtakes config events first later)
    (after : first.received ≤ other.received)
    (inTime : other.received - first.received < config.cohortTimeout)
    (order : (other :: first :: later :: rest).Perm events) :
    ∃ admission, Yields config base startedAt startedWallMs tickAt
        (inOrder (other :: first :: later :: rest)) tickOrder admission ∧
      lates (admission.counted other.provider) =
        (later :: rest).countP fun event => decide (event.provider = other.provider) := by
  have ordered : OneBase config base
      ((inOrder (other :: first :: later :: rest)).map Prod.snd) := by
    rw [map_snd_inOrder]
    exact oneBase.perm order
  have passed : ∀ event ∈ (inOrder (other :: first :: later :: rest)).map Prod.snd,
      config.cohortTimeout ≤ tickAt - event.received := by
    intro event member
    rw [map_snd_inOrder] at member
    have before := afterAll event (order.mem_iff.mp member)
    omega
  have early : ¬([other].any fun old =>
      decide (config.cohortTimeout ≤ first.received - old.received)) = true := by
    rw [List.any_cons, List.any_nil, Bool.or_false, decide_eq_true_eq]
    omega
  have found : (([other] ++ [first]).any fun old =>
      decide (config.cohortTimeout ≤ later.received - old.received)) = true := by
    rw [List.any_append, List.any_cons, List.any_cons, decide_eq_true overtakes.passed,
      Bool.true_or, Bool.or_true]
  have isCut : cutFrom config.cohortTimeout [] (other :: first :: later :: rest) =
      ([other, first], later :: rest) := by
    rw [cutFrom_first, cutFrom, if_neg early, cutFrom, if_pos found]
    rfl
  obtain ⟨pending, gathers, yields⟩ := yields_several startedAt startedWallMs tickAt tickOrder
    roomy ordered several (List.cons_ne_nil _ _) passed
  rw [map_snd_inOrder, isCut] at gathers yields
  rw [map_snd_inOrder] at ordered
  refine ⟨_, yields, ?_⟩
  have head : OneBase config base ([other, first] ++ later :: rest) := ordered
  have otherEvent : other ∈ events := order.mem_iff.mp List.mem_cons_self
  have observed : first.received ≤ pending.firstObserved := by
    refine (gathers.earliest first.received).mpr fun event member => ?_
    rcases List.mem_cons.mp member with rfl | last
    · exact after
    · rw [List.mem_singleton.mp last]
  rw [lates_verdict gathers head.front (oneBase.accepted other otherEvent).active]
  refine Nat.add_eq_right.mpr (List.countP_eq_zero.mpr fun event member late => ?_)
  rw [Bool.and_eq_true, decide_eq_true_eq, decide_eq_true_eq] at late
  rcases List.mem_cons.mp member with rfl | last
  · omega
  · rw [List.mem_singleton.mp last] at late
    omega

theorem alone_of_orderFree
    (orderFree : OrderFree config base startedAt startedWallMs tickAt events)
    (overtakes : Overtakes config events first later) (member : other ∈ events)
    (after : first.received ≤ other.received)
    (inTime : other.received - first.received < config.cohortTimeout) : other = first := by
  by_contra different
  have otherLater : other ≠ later := by
    rintro rfl
    exact Nat.not_le.mpr inTime overtakes.passed
  obtain ⟨rest, order⟩ := exists_opening positive overtakes
  have behind : other ∈ rest := by
    have here := order.mem_iff.mpr member
    exact List.mem_of_ne_of_mem otherLater (List.mem_of_ne_of_mem different here)
  have moved : (other :: first :: later :: rest.erase other).Perm events := by
    refine List.Perm.trans ?_ order
    exact ((List.Perm.swap first other _).trans ((List.Perm.swap later other _).cons first)).trans
      (((List.perm_cons_erase behind).symm.cons later).cons first)
  have opening := yields_opening startedAt startedWallMs .stored roomy oneBase several positive
    afterAll overtakes order
  obtain ⟨admission, pair, late⟩ := yields_opening_pair startedAt startedWallMs .stored roomy
    oneBase several positive afterAll overtakes after inTime moved
  obtain ⟨common, yieldsOne, yieldsTwo⟩ := orderFree (inOrder (first :: later :: rest))
    (inOrder (other :: first :: later :: rest.erase other))
    ((map_snd_inOrder _).symm ▸ order) ((map_snd_inOrder _).symm ▸ moved) .stored .stored
  obtain rfl := yieldsOne.unique opening
  obtain rfl := yieldsTwo.unique pair
  rw [lates_loneVerdict, ← moved.countP_eq, List.countP_cons, List.countP_cons,
    if_pos (decide_eq_true rfl)] at late
  by_cases sameProvider : other.provider = first.provider
  · rw [if_pos sameProvider, if_pos (decide_eq_true sameProvider.symm)] at late
    omega
  · rw [if_neg sameProvider] at late
    omega

theorem oneInTime_of_orderFree
    (orderFree : OrderFree config base startedAt startedWallMs tickAt events) :
    OneInTime config events tickAt := by
  have alone : ∀ first later other, Overtakes config events first later → other ∈ events →
      first.received ≤ other.received →
      other.received - first.received < config.cohortTimeout → other = first :=
    fun first later other overtakes member after inTime => alone_of_orderFree startedAt
      startedWallMs roomy oneBase several positive afterAll orderFree overtakes member after inTime
  have opening : ∀ first later, Overtakes config events first later →
      ∃ order, ((inOrder order).map Prod.snd).Perm events ∧
        Yields config base startedAt startedWallMs tickAt (inOrder order) .stored
          (loneVerdict config base first later.received tickAt events) := by
    intro first later overtakes
    obtain ⟨rest, order⟩ := exists_opening positive overtakes
    refine ⟨_, ?_, yields_opening startedAt startedWallMs .stored roomy oneBase several positive
      afterAll overtakes order⟩
    rwa [map_snd_inOrder]
  have provider : ∀ first later other latest, Overtakes config events first later →
      Overtakes config events other latest → first.provider = other.provider := by
    intro first later other latest overtakes otherOvertakes
    obtain ⟨order, permuted, yields⟩ := opening first later overtakes
    obtain ⟨twin, twinPermuted, yieldsTwin⟩ := opening other latest otherOvertakes
    obtain ⟨admission, one, two⟩ := orderFree _ _ permuted twinPermuted .stored .stored
    have same := (one.unique yields).symm.trans (two.unique yieldsTwin)
    have late := congrArg (fun admission => lates (admission.counted first.provider)) same
    have counted : 0 < events.countP fun event => decide (event.provider = first.provider) :=
      List.countP_pos_iff.mpr ⟨first, overtakes.opens, decide_eq_true rfl⟩
    rw [lates_loneVerdict, lates_loneVerdict, if_pos rfl] at late
    by_contra different
    rw [if_neg different] at late
    omega
  refine ⟨alone, provider, fun first later overtakes canonicalHere => ?_⟩
  obtain ⟨order, permuted, yields⟩ := opening first later overtakes
  have descending : ((inOrder (events.mergeSort fun earlier later =>
      decide (later.received ≤ earlier.received))).map Prod.snd).Perm events := by
    rw [map_snd_inOrder]
    exact List.mergeSort_perm events _
  obtain ⟨lone, latest, overtakesLone, yieldsLone, _⟩ := yields_loneVerdict startedAt startedWallMs
    .stored roomy oneBase several positive afterAll alone overtakes descending
  obtain ⟨admission, one, two⟩ := orderFree _ _ permuted descending .stored .stored
  have same := (one.unique yields).symm.trans (two.unique yieldsLone)
  have uncut : (cutFrom config.cohortTimeout [] ((inOrder (events.mergeSort fun earlier later =>
      decide (later.received ≤ earlier.received))).map Prod.snd)).2 = [] := by
    rw [map_snd_inOrder, cutFrom_of_descending positive]
    refine (List.pairwise_mergeSort ?_ ?_ events).imp fun descends => of_decide_eq_true descends
    · intro one two three
      rw [decide_eq_true_eq, decide_eq_true_eq, decide_eq_true_eq]
      exact fun left right => Nat.le_trans right left
    · intro one two
      rw [Bool.or_eq_true, decide_eq_true_eq, decide_eq_true_eq]
      exact Nat.le_total _ _
  have canonicalLone : Canonical config lone := by
    have sameProvider := provider first later lone latest overtakes overtakesLone
    unfold Canonical at canonicalHere ⊢
    rwa [← sameProvider]
  have coverage := congrArg (fun admission => Multiset.card admission.coverage) same
  unfold loneVerdict at coverage
  dsimp only at coverage
  have sampled : Canonical config lone ∧ 0 ≤ config.rollingWindow := ⟨canonicalLone, Nat.zero_le _⟩
  rw [uncut, sealTime, Nat.sub_self, if_pos sampled] at coverage
  by_contra pruned
  rw [if_neg fun both => pruned both.2] at coverage
  cases coverage

end Several

/-! ## A single source -/

section Single

variable (startedAt startedWallMs tickAt : Nat) (tickOrder : IterationOrder)
  (roomy : maxSignaturesPerBase ≤ config.maxRollingCohorts)
  (oneBase : OneBase config base events) (single : config.providers.length = 1)
  (positive : 0 < config.cohortTimeout)
include roomy oneBase single positive

/-- The first event of an order is the one that a single source admits. -/
theorem yields_first (order : (first :: rest).Perm events)
    (recorded : observations.map Prod.snd = first :: rest) :
    Yields config base startedAt startedWallMs tickAt observations tickOrder
      (loneVerdict config base first first.received tickAt events) := by
  have ordered : OneBase config base (first :: rest) := oneBase.perm order
  have active := (ordered.accepted first List.mem_cons_self).active
  cases observations with
  | nil => cases recorded
  | cons observation observations =>
      obtain ⟨rfl, rfl⟩ := List.cons.inj recorded
      obtain ⟨gathers, yields⟩ := yields_alone startedAt startedWallMs tickAt tickOrder roomy
        ordered (single_of_length single active)
      have isLone : Lone config [observation.2] (loneBase observation.2) observation.2 := by
        refine ⟨List.mem_singleton_self _, active, ?_,
          fun event member _ => List.mem_singleton.mp member⟩
        unfold InTime loneBase
        rw [Nat.sub_self]
        exact positive
      have head : OneBase config base ([observation.2] ++ observations.map Prod.snd) := ordered
      rw [verdict_of_lone gathers isLone head.front fun _ => rfl] at yields
      rwa [loneVerdict_congr rfl
        (show ([observation.2] ++ observations.map Prod.snd).Perm events from order)
        (fun _ => rfl) fun _ => Iff.rfl] at yields

theorem orderFree_single_iff :
    OrderFree config base startedAt startedWallMs tickAt events ↔
      ∀ first ∈ events, ∀ other ∈ events,
        shown config tickAt first = shown config tickAt other := by
  have front : ∀ event ∈ events, (event :: events.erase event).Perm events :=
    fun event member => (List.perm_cons_erase member).symm
  constructor
  · intro orderFree event member other otherMember
    have canonicalOf : ∀ event ∈ events,
        config.providers = [event.provider] ∧ Canonical config event := by
      intro event member
      have alone := single_of_length single (oneBase.accepted event member).active
      have reference := config.referenceProvider_mem
      rw [alone, List.mem_singleton] at reference
      exact ⟨alone, Or.inr reference.symm⟩
    obtain ⟨admission, one, two⟩ := orderFree (inOrder (event :: events.erase event))
      (inOrder (other :: events.erase other)) ((map_snd_inOrder _).symm ▸ front event member)
      ((map_snd_inOrder _).symm ▸ front other otherMember) .stored .stored
    have yields := yields_first startedAt startedWallMs tickAt .stored roomy oneBase single positive
      (front event member) (map_snd_inOrder _)
    have yieldsOther := yields_first startedAt startedWallMs tickAt .stored roomy oneBase single
      positive (front other otherMember) (map_snd_inOrder _)
    have same := congrArg Admission.cohorts
      ((one.unique yields).symm.trans (two.unique yieldsOther))
    obtain ⟨alone, canonicalHere⟩ := canonicalOf event member
    obtain ⟨aloneOther, canonicalOther⟩ := canonicalOf other otherMember
    unfold loneVerdict at same
    dsimp only at same
    unfold shown
    by_cases recent : tickAt - event.received ≤ config.rollingWindow
    · rw [if_pos ⟨canonicalHere, alone, recent⟩] at same
      by_cases otherRecent : tickAt - other.received ≤ config.rollingWindow
      · rw [if_pos ⟨canonicalOther, aloneOther, otherRecent⟩] at same
        obtain ⟨sameReceived, sameRow⟩ := Prod.mk.inj (Multiset.singleton_inj.mp same)
        have latency := congrFun sameRow event.provider
        have past := (oneBase.accepted event member).past
        have otherPast := (oneBase.accepted other otherMember).past
        rw [← EventKey.base_eventMs, oneBase.own event member] at past
        rw [← EventKey.base_eventMs, oneBase.own other otherMember] at otherPast
        rw [if_pos (oneBase.accepted event member).active,
          if_pos (oneBase.accepted event member).active] at latency
        have sameWall : event.receivedWallMs = other.receivedWallMs := by omega
        rw [if_pos recent, if_pos otherRecent, sameReceived, sameWall]
      · rw [if_neg fun all => otherRecent all.2.2] at same
        exact absurd same (Multiset.singleton_ne_zero _)
    · rw [if_neg fun all => recent all.2.2] at same
      by_cases otherRecent : tickAt - other.received ≤ config.rollingWindow
      · rw [if_pos ⟨canonicalOther, aloneOther, otherRecent⟩] at same
        exact absurd same.symm (Multiset.singleton_ne_zero _)
      · rw [if_neg recent, if_neg otherRecent]
  · intro sameShown one two oneOrder twoOrder oneTick twoTick
    cases firstOne : one.map Prod.snd with
    | nil =>
        rw [firstOne] at oneOrder
        obtain rfl := List.Perm.nil_eq oneOrder
        obtain rfl := List.map_eq_nil_iff.mp firstOne
        obtain rfl := List.map_eq_nil_iff.mp (List.Perm.eq_nil twoOrder)
        exact ⟨_, yields_nil, yields_nil⟩
    | cons event rest =>
        rw [firstOne] at oneOrder
        have member := oneOrder.mem_iff.mp List.mem_cons_self
        cases firstTwo : two.map Prod.snd with
        | nil =>
            rw [firstTwo] at twoOrder
            rw [← List.Perm.nil_eq twoOrder] at member
            exact absurd member List.not_mem_nil
        | cons other others =>
            rw [firstTwo] at twoOrder
            have otherMember := twoOrder.mem_iff.mp List.mem_cons_self
            have same := sameShown event member other otherMember
            have alone := single_of_length single (oneBase.accepted event member).active
            have otherAlone := single_of_length single (oneBase.accepted other otherMember).active
            refine ⟨_, yields_first startedAt startedWallMs tickAt oneTick roomy oneBase single
              positive oneOrder firstOne, ?_⟩
            rw [loneVerdict_congr (List.singleton_inj.mp (alone.symm.trans otherAlone))
              (List.Perm.refl events) (fun _ => same) fun _ => recent_iff_of_shown same]
            exact yields_first startedAt startedWallMs tickAt twoTick roomy oneBase single positive
              twoOrder firstTwo

end Single

/--
The orders of the events of one base end with the same admission exactly when there is no time
before the deadline, when a single source shows the same sample for each of them, or when every
event that another one overtakes is alone in time.
-/
theorem order_free_iff (startedAt startedWallMs tickAt : Nat)
    (roomy : maxSignaturesPerBase ≤ config.maxRollingCohorts)
    (oneBase : OneBase config base events)
    (afterAll : ∀ event ∈ events, event.received + config.cohortTimeout ≤ tickAt) :
    OrderFree config base startedAt startedWallMs tickAt events ↔
      config.cohortTimeout = 0 ∨
      (config.providers.length = 1 ∧ ∀ first ∈ events, ∀ other ∈ events,
        shown config tickAt first = shown config tickAt other) ∨
      (config.providers.length ≠ 1 ∧ OneInTime config events tickAt) := by
  by_cases untimed : config.cohortTimeout = 0
  · refine iff_of_true ?_ (Or.inl untimed)
    intro one two oneOrder twoOrder oneTick twoTick
    have yields := yields_untimed startedAt startedWallMs tickAt oneTick roomy untimed
      (oneBase.perm oneOrder)
    have yieldsOther := yields_untimed startedAt startedWallMs tickAt twoTick roomy untimed
      (oneBase.perm twoOrder)
    rw [lateVerdict_perm oneOrder] at yields
    rw [lateVerdict_perm twoOrder] at yieldsOther
    exact ⟨_, yields, yieldsOther⟩
  · have positive := Nat.pos_of_ne_zero untimed
    rw [or_iff_right untimed]
    by_cases single : config.providers.length = 1
    · rw [orderFree_single_iff startedAt startedWallMs tickAt roomy oneBase single positive,
        and_iff_right single, or_iff_left fun both => both.1 single]
    · rw [and_iff_right single, or_iff_right fun both => single both.1]
      exact ⟨oneInTime_of_orderFree startedAt startedWallMs roomy oneBase single positive afterAll,
        orderFree_of_oneInTime startedAt startedWallMs roomy oneBase single positive afterAll⟩

/-! ## Three quotes of one book -/

/-- The base of the sample quotes. -/
def quoteBase : BaseKey := (quote .foundationWs "7" 0).key.base

theorem oneBase_quotes {foundation hydromancer quickNode : Nat} :
    OneBase bookProcess quoteBase [quote .foundationWs "7" foundation,
      quote .hydromancerWs "7" hydromancer, quote .quickNodeGrpc "7" quickNode] where
  registered := List.mem_singleton_self _
  accepted := by
    intro event member
    rcases List.mem_cons.mp member with rfl | member
    · exact ⟨List.mem_cons_self, Nat.one_pos, Nat.le_add_right _ _⟩
    · rcases List.mem_cons.mp member with rfl | member
      · exact ⟨List.mem_cons_of_mem _ List.mem_cons_self, Nat.one_pos, Nat.le_add_right _ _⟩
      · rw [List.mem_singleton.mp member]
        exact ⟨List.mem_cons_of_mem _ (List.mem_cons_of_mem _ List.mem_cons_self), Nat.one_pos,
          Nat.le_add_right _ _⟩
  own := by
    intro event member
    rcases List.mem_cons.mp member with rfl | member
    · rfl
    · rcases List.mem_cons.mp member with rfl | member
      · rfl
      · rw [List.mem_singleton.mp member]
        rfl
  distinct := List.Nodup.of_map Prod.fst (show [Provider.foundationWs, .hydromancerWs,
    .quickNodeGrpc].Nodup by decide)
  few := by
    refine (Finset.card_le_one.mpr ?_).trans (by decide)
    intro first firstMember second secondMember
    rw [List.mem_toFinset] at firstMember secondMember
    have only : ∀ content ∈ List.map (fun event : MarketEvent => event.key.content)
        [quote .foundationWs "7" foundation, quote .hydromancerWs "7" hydromancer,
          quote .quickNodeGrpc "7" quickNode],
        content = (quote .foundationWs "7" foundation).key.content := by
      intro content member
      rcases List.mem_cons.mp member with rfl | member
      · rfl
      · rcases List.mem_cons.mp member with rfl | member
        · rfl
        · rw [List.mem_singleton.mp member]
          rfl
    rw [only first firstMember, only second secondMember]

theorem quotes_in_time_order_free :
    OrderFree bookProcess quoteBase 0 0 20
      [quote .foundationWs "7" 0, quote .hydromancerWs "7" 4, quote .quickNodeGrpc "7" 5] := by
  have early : ∀ event ∈ [quote .foundationWs "7" 0, quote .hydromancerWs "7" 4,
      quote .quickNodeGrpc "7" 5], event.received < 10 := by decide
  have never : ∀ first later, ¬Overtakes bookProcess [quote .foundationWs "7" 0,
      quote .hydromancerWs "7" 4, quote .quickNodeGrpc "7" 5] first later := by
    intro first later overtakes
    have before := early later overtakes.comes
    have passed : 10 ≤ later.received - first.received := overtakes.passed
    omega
  refine (order_free_iff 0 0 20 (by decide) oneBase_quotes (by decide)).mpr
    (Or.inr (Or.inr ⟨by decide, ?_, ?_, ?_⟩))
  · exact fun first later _ overtakes => absurd overtakes (never first later)
  · exact fun first later _ _ overtakes => absurd overtakes (never first later)
  · exact fun first later overtakes => absurd overtakes (never first later)

/-- Processed before a quote in time, the quote past the deadline seals the base without it. -/
theorem late_quote_first_shuts_out :
    OneBase bookProcess quoteBase
        [quote .foundationWs "7" 0, quote .hydromancerWs "7" 4, quote .quickNodeGrpc "7" 12] ∧
      (∀ event ∈ [quote .foundationWs "7" 0, quote .hydromancerWs "7" 4,
        quote .quickNodeGrpc "7" 12], event.received + bookProcess.cohortTimeout ≤ 22) ∧
      (run step (Benchmark.new bookProcess 0 0) [recordQuote .foundationWs "7" 0,
        recordQuote .quickNodeGrpc "7" 12, recordQuote .hydromancerWs "7" 4,
        .tick .stored 22]).map (fun final => final.counters "BTC" .hydromancerWs) =
          some { observed := 1, missing := 1, late := 1 } ∧
      (run step (Benchmark.new bookProcess 0 0) [recordQuote .foundationWs "7" 0,
        recordQuote .hydromancerWs "7" 4, recordQuote .quickNodeGrpc "7" 12,
        .tick .stored 22]).map (fun final => final.counters "BTC" .hydromancerWs) =
          some { observed := 1, matched := 1 } ∧
      ¬OrderFree bookProcess quoteBase 0 0 22
        [quote .foundationWs "7" 0, quote .hydromancerWs "7" 4, quote .quickNodeGrpc "7" 12] := by
  refine ⟨oneBase_quotes, by decide, by decide +kernel, by decide +kernel, fun orderFree => ?_⟩
  have overtakes : Overtakes bookProcess [quote .foundationWs "7" 0, quote .hydromancerWs "7" 4,
      quote .quickNodeGrpc "7" 12] (quote .foundationWs "7" 0) (quote .quickNodeGrpc "7" 12) :=
    ⟨by decide, by decide, by decide⟩
  have same : quote .hydromancerWs "7" 4 = quote .foundationWs "7" 0 :=
    alone_of_orderFree 0 0 (by decide) oneBase_quotes (by decide) (by decide) (by decide) orderFree
      overtakes (by decide) (by decide) (by decide)
  exact absurd same (by decide)

end Benchmark

end MarketBenchmark
