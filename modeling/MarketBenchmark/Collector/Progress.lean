import MarketBenchmark.Benchmark.Checked
import MarketBenchmark.Collector.Evidence

/-!
# The collector never panics

While the main loop runs each of its branches goes through, from every state
that a run reaches and with every place counted where the code may panic: the
coins and streams that are looked up are registered, an expected arrival is
there, and no latency is a subtraction below zero.  The tasks complete what
their phases allow.
-/

namespace MarketBenchmark

open Foundation.Channels
open Foundation.HashMaps
open Foundation.Runs

namespace Benchmark

variable (order : IterationOrder) (benchmark : Benchmark)

/-- An event of a registered coin is recorded. -/
theorem record_isSome {event : ProbeEvent} (known : event.stream.2 ∈ benchmark.config.coins) :
    ∃ after, benchmark.record order event = some after := by
  cases event with
  | market event =>
      have coin : event.key.coin ∈ benchmark.config.coins := known
      by_cases active : event.provider ∈ benchmark.config.providers
      · unfold record recordMarket
        dsimp only
        rw [if_neg (not_not_intro active), if_neg (not_not_intro coin)]
        split
        · exact ⟨_, rfl⟩
        · split
          · exact ⟨_, rfl⟩
          · exact ⟨_, rfl⟩
      · exact ⟨benchmark, if_pos active⟩
  | reconnect _ _ => exact ⟨_, if_neg (not_not_intro known)⟩
  | sequenceGap _ _ _ => exact ⟨_, if_neg (not_not_intro known)⟩
  | replay _ _ _ _ => exact ⟨_, if_neg (not_not_intro known)⟩

/-- A process that publishes at an interval completes every publication. -/
theorem publishWindow_isSome (publishes : 0 < asMillis benchmark.config.publishInterval)
    (now wallNowMs : Nat) (signals : RuntimeSignals) (clock : ClockHealthSnapshot)
    (accepted : Bool) :
    ∃ after, benchmark.act (.publishWindow order now wallNowMs signals clock accepted) =
      some after := by
  obtain ⟨⟨state, rows⟩, prepared⟩ : ∃ result,
      benchmark.windowEvents order now wallNowMs signals clock = some result := by
    rw [windowEvents_eq, if_neg (Nat.ne_of_gt publishes)]
    split
    · exact ⟨_, rfl⟩
    · exact ⟨_, rfl⟩
  have stepped : benchmark.step (.windowEvents order now wallNowMs signals clock) = some state :=
    congrArg (Option.map Prod.fst) prepared
  unfold act Activity.calls
  rw [run_cons, stepped, Option.bind_some, run_singleton]
  cases accepted <;> exact ⟨_, rfl⟩

theorem Grounded.act {benchmark after : Benchmark} (grounded : benchmark.Grounded)
    {activity : Activity} (acted : benchmark.act activity = some after) : after.Grounded :=
  run_preserves Grounded (fun _ _ _ held stepped => held.step stepped) grounded acted

end Benchmark

namespace Collector

variable {config : BenchmarkConfig} {collector after : Collector}

/-! ## The actions with their panics -/

/-- `act` with the panics of the benchmark. -/
def act? (collector : Collector) (activity : Benchmark.Activity) : Option Collector :=
  (run Benchmark.step? collector.benchmark activity.calls).map fun benchmark =>
    { collector with benchmark := benchmark }

/-- `step` with the panics of the benchmark, and of the rows that look up the signals of every
active stream. -/
def step? (collector : Collector) : Action → Option Collector
  | .receive order =>
      if collector.channel.closed then none
      else
        collector.channel.receive.bind fun result =>
          (collector.take result.1 result.2).act? (.record order result.1)
  | .tick order now =>
      if collector.channel.closed then none
      else collector.act? (.tick order now)
  | .publish order now wallNowMs clock accepted =>
      if collector.channel.closed then none
      else if ∀ coin ∈ collector.benchmark.config.coins,
          ∀ provider ∈ collector.benchmark.config.providers,
            (collector.signals.stream (provider, coin)).isSome then
        collector.act?
          (.publishWindow order now wallNowMs collector.signals.snapshots clock accepted)
      else none
  | action => collector.step action

theorem act?_eq (grounded : collector.benchmark.Grounded) (activity : Benchmark.Activity) :
    collector.act? activity = collector.act activity :=
  congrArg (Option.map _) (run_congr Benchmark.Grounded
    (fun _ _ _ held stepped => held.step stepped) (fun _ call held => held.step?_eq call)
    grounded activity.calls)

/-- Where the benchmark is grounded and its coins have signals, no action panics. -/
theorem step?_eq (grounded : collector.benchmark.Grounded)
    (coins : collector.signals.coins = collector.benchmark.config.coins) (action : Action) :
    collector.step? action = collector.step action := by
  have acts := fun activity => act?_eq grounded activity
  cases action with
  | receive order =>
      simp only [step?, step]
      split
      · rfl
      · refine congrArg (Option.bind _) (funext fun result => ?_)
        have taken : (collector.take result.1 result.2).benchmark.Grounded := grounded
        exact act?_eq taken _
  | tick order now => simp only [step?, step, acts]
  | publish order now wallNowMs clock accepted =>
      have present : ∀ coin ∈ collector.benchmark.config.coins,
          ∀ provider ∈ collector.benchmark.config.providers,
            (collector.signals.stream (provider, coin)).isSome := by
        intro coin known provider _
        rw [← coins] at known
        unfold SignalTable.stream
        rw [if_pos (show ((provider, coin) : Stream).2 ∈ collector.signals.coins from known)]
        rfl
      simp only [step?, step, acts]
      rw [if_pos present]
  | _ => rfl

theorem grounded_step (grounded : collector.benchmark.Grounded) {action : Action}
    (stepped : collector.step action = some after) : after.benchmark.Grounded :=
  step_induction (fun state => state.benchmark.Grounded) stepped grounded
    (fun _ _ _ held => held) (fun _ _ _ _ held => held) (fun _ _ _ held => held)
    (fun _ _ _ _ _ sent held => by
      obtain ⟨_, _, rfl⟩ := send_eq_some sent
      exact held)
    (fun _ _ _ _ _ called => grounded.act called) (fun _ _ _ called => grounded.act called)
    grounded

theorem grounded_of_run {tasks : List StreamTask} {now wallNowMs : Nat} {actions : List Action}
    {final : Collector} (reached : run step (start config tasks now wallNowMs) actions =
      some final) : final.benchmark.Grounded :=
  run_preserves (fun state => state.benchmark.Grounded)
    (fun _ _ _ held stepped => grounded_step held stepped)
    (Benchmark.grounded_new config now wallNowMs) reached

/-! ## Progress -/

theorem send_isSome {collector : Collector} (coins : collector.signals.coins = config.coins)
    {event : ProbeEvent} (known : event.stream.2 ∈ config.coins) (nowMs : Nat) :
    ∃ result, collector.send event nowMs = some result := by
  unfold Collector.send SignalTable.send SignalTable.stream
  rw [coins, if_pos known]
  exact ⟨_, rfl⟩

/-- A task of a registered coin completes what its phase allows. -/
structure GoesOn (collector : Collector) (index : Nat) (task : StreamTask) : Prop where
  dials : ∀ now, task.mayDial now = true → ∃ after, collector.step (.dial index now) = some after
  connects : ∀ nowMs, task.phase = .running false →
    ∃ after, collector.step (.connect index nowMs) = some after
  finishes : ∀ guarded ok now nowMs, task.phase = .running guarded →
    ∃ after, collector.step (.finish index ok now nowMs) = some after

theorem goesOn {collector : Collector} (coins : collector.signals.coins = config.coins)
    {index : Nat} {task : StreamTask} (found : collector.tasks[index]? = some task)
    (known : task.coin ∈ config.coins) : collector.GoesOn index task := by
  have signal : collector.signals.stream task.stream =
      some (collector.signals.streams task.stream) := by
    unfold SignalTable.stream
    rw [coins, if_pos (show task.stream.2 ∈ config.coins from known)]
  refine ⟨fun now may => ?_, fun nowMs running => ?_, fun guarded ok now nowMs running => ?_⟩
  · simp only [step, found, Option.bind_some, may, if_true, signal, Option.map_some]
    exact ⟨_, rfl⟩
  · simp only [step, found, Option.bind_some, running, if_true, signal, Option.map_some]
    exact ⟨_, rfl⟩
  · have released : (collector.release task guarded).signals.coins = config.coins := by
      cases guarded <;> exact coins
    have reconnects : (ProbeEvent.reconnect task.provider task.coin).stream.2 ∈ config.coins :=
      known
    obtain ⟨result, sent⟩ := send_isSome released reconnects nowMs
    simp only [step, found, Option.bind_some, running, finish, sent, Option.map_some]
    split
    · exact ⟨_, rfl⟩
    · exact ⟨_, rfl⟩

/--
No run reaches a panic: with all its panics an action does what it does without,
and while the main loop runs, each of its branches completes in every reachable
state, every event of a registered coin is sent, and every task of a registered
coin completes what its phase allows.
-/
theorem collector_never_panics {tasks : List StreamTask} {startedAt startedWallMs : Nat}
    {actions : List Action} {final : Collector}
    (distinct : (tasks.map StreamTask.stream).Nodup) (ready : ∀ task ∈ tasks, task.phase = .ready)
    (registered : ∀ task ∈ tasks, task.coin ∈ config.coins)
    (publishes : 0 < asMillis config.publishInterval)
    (reached : run step (start config tasks startedAt startedWallMs) actions = some final) :
    (∀ action, final.step? action = final.step action) ∧
    (final.channel.closed = false →
      (∀ order, final.channel.items ≠ [] → ∃ after, final.step? (.receive order) = some after) ∧
      (∀ order now, ∃ after, final.step? (.tick order now) = some after) ∧
      ∀ order now wallNowMs clock accepted,
        ∃ after, final.step? (.publish order now wallNowMs clock accepted) = some after) ∧
    (∀ event nowMs, event.stream.2 ∈ config.coins →
      (∀ provider coin, event ≠ .reconnect provider coin) →
      ∃ after, final.step? (.send event nowMs) = some after) ∧
    ∀ index task, final.tasks[index]? = some task → final.GoesOn index task := by
  have delivers := delivers_of_run reached
  have guarded := guarded_of_run distinct ready reached
  have configured := delivers.configured
  have same : ∀ action, final.step? action = final.step action :=
    step?_eq (grounded_of_run reached) (delivers.coins.trans (congrArg _ configured.symm))
  simp only [same]
  refine ⟨fun _ => trivial, fun isOpen => ⟨?_, ?_, ?_⟩, ?_, ?_⟩
  · intro order filled
    cases items : final.channel.items with
    | nil => exact absurd items filled
    | cons event rest =>
        have known := delivers.registered event (items ▸ List.mem_cons_self)
        rw [← configured] at known
        have received : final.channel.receive =
            some (event, { final.channel with items := rest }) := by
          unfold Channel.receive
          rw [items]
        obtain ⟨after, recorded⟩ := Benchmark.record_isSome order final.benchmark known
        have acted : final.benchmark.act (.record order event) = some after :=
          (run_singleton _ _).trans recorded
        refine ⟨{ final.take event { final.channel with items := rest } with
          benchmark := after }, ?_⟩
        simp only [step, isOpen, received, Option.bind_some]
        exact congrArg (Option.map _) acted
  · intro order now
    simp only [step, isOpen]
    exact ⟨_, rfl⟩
  · intro order now wallNowMs clock accepted
    rw [← configured] at publishes
    obtain ⟨after, acted⟩ := Benchmark.publishWindow_isSome order final.benchmark publishes now
      wallNowMs final.signals.snapshots clock accepted
    refine ⟨{ final with benchmark := after }, ?_⟩
    simp only [step, isOpen]
    exact congrArg (Option.map _) acted
  · intro event nowMs known notReconnect
    obtain ⟨result, sent⟩ := send_isSome delivers.coins known nowMs
    cases event with
    | reconnect provider coin => exact absurd rfl (notReconnect provider coin)
    | _ => exact ⟨_, congrArg (Option.map Prod.fst) sent⟩
  · intro index task found
    have kept : task.stream ∈ tasks.map StreamTask.stream :=
      guarded.streams ▸ List.mem_map_of_mem (List.mem_of_getElem? found)
    obtain ⟨origin, member, same⟩ := List.mem_map.mp kept
    have known : task.coin ∈ config.coins := by
      have sameCoin : origin.coin = task.coin := congrArg Prod.snd same
      exact sameCoin ▸ registered origin member
    exact goesOn delivers.coins found known

/-- After the run of the box a publication goes through, and so do a second quote and a tick. -/
theorem collector_never_panics_local :
    ∃ final, run step (start localBooks localTasks 0 0) localActions = some final ∧
      (∃ after, final.step? (.publish .stored 200 60000 (Benchmark.soundClock 60000) true) =
        some after) ∧
      (∃ after, final.step? (.tick .stored 300) = some after) ∧
      ∃ after, final.step? (.send (.market (Benchmark.quote .quickNodeVpc "8" 200)) 201) =
        some after := by
  have observed : (run step (start localBooks localTasks 0 0) localActions).map
      (fun final => final.channel.closed) = some false := by decide +kernel
  obtain ⟨final, reached, isOpen⟩ := Option.map_eq_some_iff.mp observed
  have ready : ∀ task ∈ localTasks, task.phase = .ready := by decide
  have registered : ∀ task ∈ localTasks, task.coin ∈ localBooks.coins := by decide
  obtain ⟨_, loop, send, _⟩ :=
    collector_never_panics (by decide) ready registered (by decide) reached
  obtain ⟨_, tick, publish⟩ := loop isOpen
  refine ⟨final, reached, publish .stored 200 60000 _ true, tick .stored 300, send _ 201 ?_ ?_⟩
  · decide
  · exact fun _ _ => ProbeEvent.noConfusion

end Collector

end MarketBenchmark
