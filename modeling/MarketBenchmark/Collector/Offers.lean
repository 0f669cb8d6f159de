import MarketBenchmark.Collector.Sessions
import MarketBenchmark.Collector.Delivery
import MarketBenchmark.Benchmark.Admission

/-!
# Where the arrivals of a cohort come from

Tasks offer market events to the queue, and the main loop records what it takes
out of it.  So the arrivals that justify a complete cohort were all offered by
tasks, whichever loops these run.
-/

namespace MarketBenchmark

open Foundation.Channels
open Foundation.Runs

namespace Collector

variable {collector next : Collector}

/-- A market event was offered to the queue. -/
def Offered (collector : Collector) (market : MarketEvent) : Prop :=
  ∃ outcome nowMs, Entry.offered (.market market) outcome nowMs ∈ collector.journal

theorem offered_of_history {market : MarketEvent}
    (member : .market market ∈ collector.history.offered) : collector.Offered market := by
  obtain ⟨⟨event, outcome⟩, isOffer, rfl⟩ := List.mem_map.mp member
  obtain ⟨entry, inJournal, same⟩ := List.mem_filterMap.mp isOffer
  cases entry with
  | connected stream => cases same
  | disconnected stream => cases same
  | offered event outcome nowMs =>
      cases same
      exact ⟨outcome, nowMs, inJournal⟩

theorem offered_of_send {event : ProbeEvent} {nowMs : Nat} {outcome : Outcome}
    (sent : collector.send event nowMs = some (next, outcome)) {market : MarketEvent}
    (offered : next.Offered market) : collector.Offered market ∨ event = .market market := by
  obtain ⟨_, _, rfl⟩ := send_eq_some sent
  obtain ⟨result, stampMs, member⟩ := offered
  rcases List.mem_append.mp member with earlier | here
  · exact Or.inl ⟨result, stampMs, earlier⟩
  · cases List.mem_singleton.mp here
    exact Or.inr rfl

/-- Only a send offers a market event. -/
theorem offered_of_step {action : Action} (stepped : collector.step action = some next)
    (notSend : ∀ event nowMs, action ≠ .send event nowMs) {market : MarketEvent}
    (offered : next.Offered market) : collector.Offered market := by
  cases action with
  | dial index now =>
      obtain ⟨found, _, stepped⟩ := Option.bind_eq_some_iff.mp stepped
      split at stepped
      · obtain ⟨signal, _, rfl⟩ := Option.map_eq_some_iff.mp stepped
        exact offered
      · cases stepped
  | connect index nowMs =>
      obtain ⟨found, _, stepped⟩ := Option.bind_eq_some_iff.mp stepped
      split at stepped
      · obtain ⟨signal, _, rfl⟩ := Option.map_eq_some_iff.mp stepped
        obtain ⟨outcome, stampMs, member⟩ := offered
        refine ⟨outcome, stampMs, (List.mem_append.mp member).resolve_right fun here => ?_⟩
        cases List.mem_singleton.mp here
      · cases stepped
  | send event nowMs => exact absurd rfl (notSend event nowMs)
  | finish index ok now nowMs =>
      obtain ⟨found, _, stepped⟩ := Option.bind_eq_some_iff.mp stepped
      split at stepped
      · next guarded _ =>
          have released : (collector.release found guarded).Offered market →
              collector.Offered market := by
            cases guarded with
            | false => exact id
            | true =>
                rintro ⟨outcome, stampMs, member⟩
                refine ⟨outcome, stampMs, (List.mem_append.mp member).resolve_right fun here => ?_⟩
                cases List.mem_singleton.mp here
          unfold Collector.finish at stepped
          dsimp only at stepped
          split at stepped
          · cases stepped
            exact released offered
          · obtain ⟨⟨told, outcome⟩, sent, same⟩ := Option.map_eq_some_iff.mp stepped
            have kept : told.Offered market := by
              cases outcome <;> cases same <;> exact offered
            exact released ((offered_of_send sent kept).resolve_right ProbeEvent.noConfusion)
      · cases stepped
  | receive order =>
      simp only [step] at stepped
      split at stepped
      · cases stepped
      · obtain ⟨result, _, stepped⟩ := Option.bind_eq_some_iff.mp stepped
        obtain ⟨benchmark, _, rfl⟩ := Option.map_eq_some_iff.mp stepped
        exact offered
  | tick order now =>
      simp only [step] at stepped
      split at stepped
      · cases stepped
      · obtain ⟨benchmark, _, rfl⟩ := Option.map_eq_some_iff.mp stepped
        exact offered
  | publish order now wallNowMs clock accepted =>
      simp only [step] at stepped
      split at stepped
      · cases stepped
      · obtain ⟨benchmark, _, rfl⟩ := Option.map_eq_some_iff.mp stepped
        exact offered
  | shutdown =>
      cases stepped
      exact offered

/-- Events sent one after the other are a run of sends, and nothing else is offered. -/
theorem sendAll_run {nowMs : Nat} {events : List ProbeEvent} {isOpen : Bool}
    (plain : ∀ event ∈ events, ∀ provider coin, event ≠ .reconnect provider coin)
    (sent : sendAll nowMs collector events = some (next, isOpen)) :
    (∃ actions, run step collector actions = some next) ∧
      ∀ market, next.Offered market → collector.Offered market ∨ .market market ∈ events := by
  induction events generalizing collector with
  | nil =>
      cases sent
      exact ⟨⟨[], rfl⟩, fun _ offered => Or.inl offered⟩
  | cons event rest ih =>
      obtain ⟨here, later⟩ := List.forall_mem_cons.mp plain
      obtain ⟨⟨middle, outcome⟩, sentOne, sent⟩ := Option.bind_eq_some_iff.mp sent
      have one : collector.step (.send event nowMs) = some middle := by
        cases event with
        | reconnect provider coin => exact absurd rfl (here provider coin)
        | _ => exact Option.map_eq_some_iff.mpr ⟨_, sentOne, rfl⟩
      have offeredOne : ∀ market, middle.Offered market →
          collector.Offered market ∨ .market market ∈ event :: rest := by
        intro market offered
        refine (offered_of_send sentOne offered).imp_right fun same => ?_
        exact same ▸ List.mem_cons_self
      have goesOn : sendAll nowMs middle rest = some (next, isOpen) →
          (∃ actions, run step collector actions = some next) ∧ ∀ market, next.Offered market →
            collector.Offered market ∨ .market market ∈ event :: rest := by
        intro sent
        obtain ⟨⟨actions, reached⟩, offeredRest⟩ := ih later sent
        refine ⟨⟨.send event nowMs :: actions, ?_⟩, fun market offered => ?_⟩
        · rw [run_cons, one]
          exact reached
        · rcases offeredRest market offered with before | among
          · exact offeredOne market before
          · exact Or.inr (List.mem_cons_of_mem event among)
      cases outcome with
      | closed =>
          cases sent
          exact ⟨⟨[.send event nowMs], (run_singleton _ _).trans one⟩, offeredOne⟩
      | sent => exact goesOn sent
      | full => exact goesOn sent

/-- The benchmark was called with what the main loop recorded. -/
def Driven (origin : Benchmark) (collector : Collector) : Prop :=
  ∃ calls, run Benchmark.step origin calls = some collector.benchmark ∧
    ∀ order event, .record order event ∈ calls → event ∈ collector.recorded

theorem Driven.step {origin : Benchmark} (driven : Driven origin collector) {action : Action}
    (stepped : collector.step action = some next) : Driven origin next := by
  refine step_induction (Driven origin) stepped driven (fun _ _ _ held => held)
    (fun _ _ _ _ held => held) (fun _ _ _ held => held) ?_ ?_ ?_ driven
  · intro state sender event nowMs outcome sent held
    obtain ⟨_, _, rfl⟩ := send_eq_some sent
    exact held
  · intro event rest order benchmark _ called
    obtain ⟨calls, reached, recorded⟩ := driven
    rw [Benchmark.act, Benchmark.Activity.calls, run_singleton] at called
    refine ⟨calls ++ [.record order event], run_concat_of_step reached called, ?_⟩
    intro other told member
    rcases List.mem_append.mp member with earlier | here
    · exact List.mem_append_left _ (recorded other told earlier)
    · cases List.mem_singleton.mp here
      exact List.mem_append_right _ (List.mem_singleton_self event)
  · intro activity benchmark notRecord called
    obtain ⟨calls, reached, recorded⟩ := driven
    refine ⟨calls ++ activity.calls, ?_, fun order event member => ?_⟩
    · rw [run_append, reached]
      exact called
    · refine recorded order event ((List.mem_append.mp member).resolve_right fun own => ?_)
      cases activity with
      | record order event => exact notRecord order event rfl
      | tick order now => cases List.mem_singleton.mp own
      | publishWindow order now wallNowMs signals clock accepted =>
          rcases List.mem_pair.mp own with same | same
          · cases same
          · split at same <;> cases same

theorem driven_of_run {config : BenchmarkConfig} {tasks : List StreamTask} {now wallNowMs : Nat}
    {actions : List Action} {final : Collector}
    (reached : run Collector.step (start config tasks now wallNowMs) actions = some final) :
    Driven (Benchmark.new config now wallNowMs) final :=
  run_preserves (Driven _) (fun _ _ _ held stepped => held.step stepped)
    ⟨[], rfl, fun _ _ member => absurd member List.not_mem_nil⟩ reached

/-! ## Loops of tasks -/

/-- The collector takes actions of its own, and what is offered on the way is fresh. -/
structure Advances (collector next : Collector) (Fresh : MarketEvent → Prop) : Prop where
  reached : ∃ actions, run step collector actions = some next
  offered : ∀ market, next.Offered market → collector.Offered market ∨ Fresh market

variable {Fresh : MarketEvent → Prop}

theorem Advances.refl : Advances collector collector Fresh where
  reached := ⟨[], rfl⟩
  offered _ offered := Or.inl offered

/-- One action that is no send. -/
theorem Advances.one {action : Action} (stepped : collector.step action = some next)
    (notSend : ∀ event nowMs, action ≠ .send event nowMs) : Advances collector next Fresh where
  reached := ⟨[action], (run_singleton _ _).trans stepped⟩
  offered _ offered := Or.inl (offered_of_step stepped notSend offered)

/-- What a loop does is no send. -/
theorem Advances.loop {action : Action} (looped : collector.loop action = some next) :
    Advances collector next Fresh := by
  unfold Collector.loop at looped
  split at looped
  · cases looped
  · cases looped
  · next _ notSend => exact .one looped notSend

theorem Advances.trans {middle : Collector} (first : Advances collector middle Fresh)
    (second : Advances middle next Fresh) : Advances collector next Fresh where
  reached := by
    obtain ⟨earlier, toMiddle⟩ := first.reached
    obtain ⟨later, toNext⟩ := second.reached
    refine ⟨earlier ++ later, ?_⟩
    rw [run_append, toMiddle]
    exact toNext
  offered market offered := by
    rcases second.offered market offered with old | fresh
    · exact first.offered market old
    · exact Or.inr fresh

theorem Advances.sendAll {nowMs : Nat} {events : List ProbeEvent} {isOpen : Bool}
    (plain : ∀ event ∈ events, ∀ provider coin, event ≠ .reconnect provider coin)
    (fresh : ∀ market, .market market ∈ events → Fresh market)
    (sent : sendAll nowMs collector events = some (next, isOpen)) :
    Advances collector next Fresh := by
  obtain ⟨reached, offered⟩ := sendAll_run plain sent
  exact ⟨reached, fun market isOffered => (offered market isOffered).imp_right (fresh market)⟩

/-- The collector under the loops of its tasks: its runs are runs of the collector, and whatever
is offered is of the given kind. -/
structure Under (origin : Collector) (Known : MarketEvent → Prop) (collector : Collector) :
    Prop where
  reached : ∃ actions, run step origin actions = some collector
  offered : ∀ market, collector.Offered market → Known market

theorem Under.advances {origin : Collector} {Known Later : MarketEvent → Prop}
    (under : Under origin Known collector) (advances : Advances collector next Later)
    (grows : ∀ market, Known market → Later market) : Under origin Later next where
  reached := by
    obtain ⟨earlier, toCollector⟩ := under.reached
    obtain ⟨later, toNext⟩ := advances.reached
    refine ⟨earlier ++ later, ?_⟩
    rw [run_append, toCollector]
    exact toNext
  offered market offered :=
    (advances.offered market offered).elim (fun old => grows market (under.offered market old)) id

theorem Under.start (config : BenchmarkConfig) (tasks : List StreamTask) (now wallNowMs : Nat)
    (Known : MarketEvent → Prop) :
    Under (.start config tasks now wallNowMs) Known (.start config tasks now wallNowMs) where
  reached := ⟨[], rfl⟩
  offered := by
    rintro market ⟨_, _, member⟩
    exact absurd member List.not_mem_nil

/-! ## Cohorts -/

/-- The events of a cohort: every active provider's carries the one key, its latency is the
cohort's, and no two are a cohort timeout apart. -/
structure Sources (config : BenchmarkConfig) (coin : String) (cohort : CommittedCohort)
    (key : EventKey) (arrival : Provider → MarketEvent) : Prop where
  coin : key.coin = coin
  eventMs : cohort.eventMs = key.eventMs
  key : ∀ provider ∈ config.providers,
    (arrival provider).provider = provider ∧ (arrival provider).key = key
  timed : ∀ provider ∈ config.providers, cohort.eventMs ≤ (arrival provider).receivedWallMs ∧
    cohort.latencyMs provider = (arrival provider).receivedWallMs - cohort.eventMs
  close : ∀ first ∈ config.providers, ∀ second ∈ config.providers,
    (arrival first).received < (arrival second).received + config.cohortTimeout

/-- The events of a cohort in a ring were offered by the tasks of its providers. -/
theorem Under.sources {config : BenchmarkConfig} {tasks : List StreamTask} {now wallNowMs : Nat}
    {Known : MarketEvent → Prop} {final : Collector}
    (under : Under (.start config tasks now wallNowMs) Known final) {coin : String}
    {cohort : CommittedCohort} (member : cohort ∈ (final.benchmark.windows coin).cohorts) :
    ∃ key arrival, Sources config coin cohort key arrival ∧
      ∀ provider ∈ config.providers, Known (arrival provider) := by
  obtain ⟨actions, reached⟩ := under.reached
  have delivers := delivers_of_run reached
  obtain ⟨calls, executed, recorded⟩ := driven_of_run reached
  obtain ⟨key, sameCoin, sameTime, before, during, after, rfl, _, arrival, justified⟩ :=
    (Benchmark.traced_run executed).cohorts coin cohort member
  refine ⟨key, arrival, ⟨sameCoin, sameTime, ?_, ?_, ?_⟩, fun provider active => ?_⟩
  · exact fun provider active => (justified.delivered provider active).2
  · intro provider active
    rw [sameTime]
    exact justified.latency provider active
  · intro first isFirst second isSecond
    exact justified.inTime first isFirst _ (justified.delivered second isSecond).1
  · obtain ⟨⟨order, called⟩, _⟩ := (justified.delivered provider active).1
    have inCalls : Call.record order (.market (arrival provider)) ∈ before ++ during ++ after :=
      List.mem_append_left after (List.mem_append_right before called)
    have offered := delivers.carries.received_sublist.subset
      (List.mem_append_left _ (recorded order _ inCalls))
    exact under.offered _ (offered_of_history offered)

end Collector

end MarketBenchmark
