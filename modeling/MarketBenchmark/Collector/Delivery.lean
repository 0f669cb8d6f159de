import MarketBenchmark.Collector.Intake

/-!
# What a feed sends is never lost in silence

Between a task and the benchmark an event can only be dropped by a full queue,
which counts the drop at its stream, or handed back by a closed one.  Every
other event reaches the benchmark, in the order in which the events were sent,
and the benchmark accounts for it.
-/

namespace MarketBenchmark

open Foundation.Channels
open Foundation.HashMaps
open Foundation.Runs
open ProviderCounters

namespace Collector

variable {collector after : Collector}

/-! ## One action -/

theorem send_eq_some {event : ProbeEvent} {nowMs : Nat} {outcome : Outcome}
    (sent : collector.send event nowMs = some (after, outcome)) :
    event.stream.2 ∈ collector.signals.coins ∧
      outcome = (collector.channel.trySend event).2 ∧
      after = { collector with
        signals := collector.signals.store event.stream
          ((collector.signals.streams event.stream).offered event outcome
            (event.dropStampMs nowMs))
        channel := (collector.channel.trySend event).1
        journal := collector.journal ++ [.offered event outcome nowMs] } := by
  obtain ⟨⟨signals, channel, result⟩, offered, same⟩ := Option.map_eq_some_iff.mp sent
  obtain ⟨registered, tried, rfl⟩ := SignalTable.send_eq_some offered
  cases same
  rw [tried]
  exact ⟨registered, rfl, rfl⟩

/--
An action is made of sends, of tasks that take or drop a guard or move on, and
of calls of the benchmark, which gets an event only from the queue.
-/
theorem step_induction (Holds : Collector → Prop) {action : Action}
    (stepped : collector.step action = some after) (held : Holds collector)
    (task : ∀ state index task, Holds state → Holds (state.setTask index task))
    (guard : ∀ state task nowMs, task ∈ state.tasks → Holds state →
      Holds (state.guard task (state.signals.streams task.stream) nowMs))
    (release : ∀ state task, task ∈ state.tasks → Holds state → Holds (state.release task true))
    (send : ∀ state next event nowMs outcome, state.send event nowMs = some (next, outcome) →
      Holds state → Holds next)
    (take : ∀ event rest order benchmark, collector.channel.receive = some (event, rest) →
      collector.benchmark.act (.record order event) = some benchmark →
      Holds { collector.take event rest with benchmark := benchmark })
    (act : ∀ activity benchmark, (∀ order event, activity ≠ .record order event) →
      collector.benchmark.act activity = some benchmark →
      Holds { collector with benchmark := benchmark })
    (close : Holds { collector with channel := collector.channel.close }) : Holds after := by
  have acts : ∀ {activity : Benchmark.Activity}, (∀ order event, activity ≠ .record order event) →
      collector.act activity = some after → Holds after := by
    intro activity other acted
    obtain ⟨benchmark, called, rfl⟩ := Option.map_eq_some_iff.mp acted
    exact act activity benchmark other called
  cases action with
  | dial index now =>
      obtain ⟨found, _, stepped⟩ := Option.bind_eq_some_iff.mp stepped
      split at stepped
      · obtain ⟨signal, _, rfl⟩ := Option.map_eq_some_iff.mp stepped
        exact task _ _ _ held
      · cases stepped
  | connect index nowMs =>
      obtain ⟨found, present, stepped⟩ := Option.bind_eq_some_iff.mp stepped
      split at stepped
      · obtain ⟨signal, registered, rfl⟩ := Option.map_eq_some_iff.mp stepped
        obtain ⟨_, rfl⟩ := SignalTable.stream_eq_some registered
        exact task _ _ _ (guard _ _ _ (List.mem_of_getElem? present) held)
      · cases stepped
  | send event nowMs =>
      cases event with
      | reconnect _ _ => cases stepped
      | _ =>
          obtain ⟨⟨next, outcome⟩, sent, rfl⟩ := Option.map_eq_some_iff.mp stepped
          exact send _ _ _ _ _ sent held
  | finish index ok now nowMs =>
      obtain ⟨found, present, stepped⟩ := Option.bind_eq_some_iff.mp stepped
      split at stepped
      · next guarded _ =>
          have released : Holds (collector.release found guarded) := by
            cases guarded with
            | false => exact held
            | true => exact release _ _ (List.mem_of_getElem? present) held
          unfold Collector.finish at stepped
          dsimp only at stepped
          split at stepped
          · cases stepped
            exact task _ _ _ released
          · obtain ⟨⟨next, outcome⟩, sent, same⟩ := Option.map_eq_some_iff.mp stepped
            have told := send _ _ _ _ _ sent released
            cases outcome with
            | closed => exact same ▸ task _ _ _ told
            | sent => exact same ▸ task _ _ _ told
            | full => exact same ▸ task _ _ _ told
      · cases stepped
  | receive order =>
      simp only [step] at stepped
      split at stepped
      · cases stepped
      · obtain ⟨⟨event, rest⟩, received, stepped⟩ := Option.bind_eq_some_iff.mp stepped
        obtain ⟨benchmark, called, rfl⟩ := Option.map_eq_some_iff.mp stepped
        exact take event rest order benchmark received called
  | tick order now =>
      simp only [step] at stepped
      split at stepped
      · cases stepped
      · exact acts (fun _ _ => Benchmark.Activity.noConfusion) stepped
  | publish order now wallNowMs clock accepted =>
      simp only [step] at stepped
      split at stepped
      · cases stepped
      · exact acts (fun _ _ => Benchmark.Activity.noConfusion) stepped
  | shutdown =>
      cases stepped
      exact close

/-! ## The invariant -/

/-- The events of a stream among the given ones. -/
def ofStream (stream : Stream) (events : List ProbeEvent) : List ProbeEvent :=
  events.filter fun event => event.stream = stream

/-- What events bring to a stream. -/
def brought (stream : Stream) (events : List ProbeEvent) : Receipts :=
  (events.map fun event => event.bringsTo stream).sum

theorem brought_append (stream : Stream) (first second : List ProbeEvent) :
    brought stream (first ++ second) = brought stream first + brought stream second := by
  unfold brought
  rw [List.map_append, List.sum_append]

/-- The benchmark took in what was received, and dropped events are counted. -/
structure Delivers (config : BenchmarkConfig) (collector : Collector) : Prop where
  configured : collector.benchmark.config = config
  coins : collector.signals.coins = config.coins
  carries : Carries collector.history collector.channel
  registered : ∀ event ∈ collector.channel.items, event.stream.2 ∈ config.coins
  tookIn : collector.benchmark.TookIn fun stream => brought stream collector.recorded
  owing : collector.benchmark.Owing fun _ _ => 0
  dropped : ∀ stream, (collector.signals.streams stream).queueDropped =
    (ofStream stream (collector.history.withOutcome .full)).length
  returned : collector.channel.closed = false → collector.history.withOutcome .closed = []

namespace Delivers

variable {config : BenchmarkConfig}

theorem start (tasks : List StreamTask) (now wallNowMs : Nat) :
    Delivers config (Collector.start config tasks now wallNowMs) where
  configured := rfl
  coins := rfl
  carries := .empty eventQueueCapacity
  registered _ member := absurd member List.not_mem_nil
  tookIn := .new config now wallNowMs
  owing := .new
  dropped _ := rfl
  returned _ := rfl

/-- Signals may change in what does not count drops, and the journal may tell of guards. -/
theorem retouch (delivers : Delivers config collector) {task : StreamTask} {signal : StreamSignal}
    {entry : Entry} (same : signal.queueDropped =
      (collector.signals.streams task.stream).queueDropped) (guard : entry.offer = none) :
    Delivers config { collector with
      signals := collector.signals.store task.stream signal
      journal := collector.journal ++ [entry] } := by
  have history : ({ collector with
      signals := collector.signals.store task.stream signal
      journal := collector.journal ++ [entry] } : Collector).history = collector.history := by
    unfold Collector.history
    rw [List.filterMap_append, List.filterMap_cons, guard]
    exact congrArg (History.mk · collector.recorded) (List.append_nil _)
  refine ⟨delivers.configured, delivers.coins, history ▸ delivers.carries, delivers.registered,
    delivers.tookIn, delivers.owing, fun stream => ?_, history ▸ delivers.returned⟩
  rw [history, ← delivers.dropped stream]
  change ((Function.update collector.signals.streams task.stream signal) stream).queueDropped = _
  by_cases own : stream = task.stream
  · rw [own, Function.update_self, same]
  · rw [Function.update_of_ne own]

theorem history_offered (collector : Collector) (event : ProbeEvent) (outcome : Outcome)
    (nowMs : Nat) (signals : SignalTable) (channel : Channel ProbeEvent) :
    ({ collector with
        signals := signals
        channel := channel
        journal := collector.journal ++ [.offered event outcome nowMs] } : Collector).history =
      collector.history.offer event outcome := by
  unfold Collector.history
  rw [List.filterMap_append]
  rfl

theorem send (delivers : Delivers config collector) {event : ProbeEvent} {nowMs : Nat}
    {outcome : Outcome} (sent : collector.send event nowMs = some (after, outcome)) :
    Delivers config after := by
  obtain ⟨registered, outcomeEq, rfl⟩ := send_eq_some sent
  have history := history_offered collector event outcome nowMs
    (collector.signals.store event.stream
      ((collector.signals.streams event.stream).offered event outcome (event.dropStampMs nowMs)))
    (collector.channel.trySend event).1
  rw [delivers.coins] at registered
  refine ⟨delivers.configured, delivers.coins, ?_, ?_, delivers.tookIn, delivers.owing, ?_, ?_⟩
  · rw [history, outcomeEq]
    exact delivers.carries.trySend event
  · intro other member
    rcases collector.channel.trySend_cases event with ⟨same, _⟩ | ⟨same, _⟩ | ⟨same, _⟩
    · rw [same] at member
      exact delivers.registered other member
    · rw [same] at member
      rcases List.mem_append.mp member with before | here
      · exact delivers.registered other before
      · exact List.mem_singleton.mp here ▸ registered
    · rw [same] at member
      exact delivers.registered other member
  · intro stream
    rw [history, History.withOutcome_offer, ofStream, List.filter_append, List.length_append]
    change ((Function.update collector.signals.streams event.stream _) stream).queueDropped = _
    have before := delivers.dropped stream
    unfold ofStream at before
    by_cases own : stream = event.stream
    · rw [← before, own, Function.update_self]
      cases outcome with
      | full => simp [StreamSignal.offered, StreamSignal.dropped, StreamSignal.heard]; split <;> rfl
      | sent => simp [StreamSignal.offered, StreamSignal.heard]; split <;> rfl
      | closed => simp [StreamSignal.offered, StreamSignal.heard]; split <;> rfl
    · rw [Function.update_of_ne own, before]
      have other : ¬event.stream = stream := fun same => own same.symm
      split <;> simp [other]
  · intro isOpen
    have wasOpen : collector.channel.closed = false :=
      (collector.channel.trySend_closed event).symm.trans isOpen
    rw [history, History.withOutcome_offer, delivers.returned wasOpen, outcomeEq, if_neg,
      List.nil_append]
    intro gone
    rcases collector.channel.trySend_cases event with ⟨_, closed⟩ | ⟨same, _⟩ | ⟨same, _⟩
    · exact absurd (wasOpen.symm.trans closed) Bool.false_ne_true
    · exact nomatch (congrArg Prod.snd same).symm.trans gone
    · exact nomatch (congrArg Prod.snd same).symm.trans gone

/-- The main loop takes an event out of the queue and records it. -/
theorem take (delivers : Delivers config collector) {event : ProbeEvent}
    {rest : Channel ProbeEvent} {order : IterationOrder} {benchmark : Benchmark}
    (received : collector.channel.receive = some (event, rest))
    (called : collector.benchmark.act (.record order event) = some benchmark) :
    Delivers config { collector.take event rest with benchmark := benchmark } := by
  obtain ⟨items, _, sameClosed⟩ := Channel.receive_eq_some received
  have member : ∀ other ∈ rest.items, other ∈ collector.channel.items := by
    intro other present
    rw [items]
    exact List.mem_cons_of_mem event present
  refine ⟨(Benchmark.run_config called).trans delivers.configured, delivers.coins,
    delivers.carries.receive received, fun other present => delivers.registered other
      (member other present), ?_, ?_, delivers.dropped, fun isOpen => delivers.returned ?_⟩
  · intro provider coin active
    have took := delivers.tookIn.act called provider coin active
    refine took.trans ?_
    change _ = brought (provider, coin) (collector.recorded ++ [event])
    rw [brought_append]
    congr 1
  · exact run_preserves (Benchmark.Owing fun _ _ => 0)
      (fun _ _ _ held stepped => held.step stepped) delivers.owing called
  · exact sameClosed.symm.trans isOpen

/-- The main loop settles or publishes. -/
theorem act (delivers : Delivers config collector) {activity : Benchmark.Activity}
    {benchmark : Benchmark} (other : ∀ order event, activity ≠ .record order event)
    (called : collector.benchmark.act activity = some benchmark) :
    Delivers config { collector with benchmark := benchmark } := by
  refine ⟨(Benchmark.run_config called).trans delivers.configured, delivers.coins,
    delivers.carries, delivers.registered, ?_, ?_, delivers.dropped, delivers.returned⟩
  · intro provider coin active
    refine (delivers.tookIn.act called provider coin active).trans ?_
    cases activity with
    | record order event => exact absurd rfl (other order event)
    | tick order now => exact add_zero _
    | publishWindow order now wallNowMs signals clock accepted => exact add_zero _
  · exact run_preserves (Benchmark.Owing fun _ _ => 0)
      (fun _ _ _ held stepped => held.step stepped) delivers.owing called

theorem step (delivers : Delivers config collector) {action : Action}
    (stepped : collector.step action = some after) : Delivers config after :=
  step_induction (Delivers config) stepped delivers
    (fun _ _ _ held => ⟨held.configured, held.coins, held.carries, held.registered, held.tookIn,
      held.owing, held.dropped, held.returned⟩)
    (fun _ _ _ _ held => held.retouch rfl rfl)
    (fun _ _ _ held => held.retouch rfl rfl)
    (fun _ _ _ _ _ sent held => held.send sent)
    (fun _ _ _ _ received called => delivers.take received called)
    (fun _ _ other called => delivers.act other called)
    ⟨delivers.configured, delivers.coins, delivers.carries.close, delivers.registered,
      delivers.tookIn, delivers.owing, delivers.dropped, fun isOpen => nomatch isOpen⟩

end Delivers

theorem delivers_of_run {config : BenchmarkConfig} {tasks : List StreamTask} {now wallNowMs : Nat}
    {actions : List Action} {final : Collector}
    (reached : run step (start config tasks now wallNowMs) actions = some final) :
    Delivers config final :=
  run_preserves (Delivers config) (fun _ _ _ held stepped => held.step stepped)
    (.start tasks now wallNowMs) reached

/-! ## Runs -/

/--
In every run, what the tasks sent for an active stream is what the counters of
the stream account for, with what is queued, what a full queue dropped and what
a closed one returned; the drops are counted at the stream, nothing is returned
while the main loop runs, and events are recorded in the order in which they
were sent.
-/
theorem sent_events_accounted {config : BenchmarkConfig} {tasks : List StreamTask}
    {now wallNowMs : Nat} {actions : List Action} {final : Collector}
    (reached : run step (start config tasks now wallNowMs) actions = some final)
    {provider : Provider} (active : provider ∈ config.providers) (coin : String) :
    let stream := (provider, coin)
    let counters := final.benchmark.counters coin provider
    let drops := final.history.withOutcome .full
    let returns := final.history.withOutcome .closed
    (brought stream final.history.offered =
      (counters.matched + counters.orphaned + counters.duplicate + counters.late +
          counters.signatureOverflow + final.benchmark.storedArrivals coin provider +
          counters.negativeLatency + counters.futureTimestamp,
        counters.reconnects, counters.sequenceGaps, counters.replayCount, counters.replayGaps) +
        brought stream final.channel.items + brought stream drops + brought stream returns) ∧
    (final.signals.streams stream).queueDropped = (ofStream stream drops).length ∧
    (final.channel.closed = false → returns = []) ∧
    (final.recorded ++ final.channel.items).Sublist final.history.offered := by
  have delivers := delivers_of_run reached
  refine ⟨?_, delivers.dropped _, delivers.returned, delivers.carries.received_sublist⟩
  have isActive : provider ∈ final.benchmark.config.providers := by
    rw [delivers.configured]
    exact active
  have observed : (final.benchmark.counters coin provider).observed = _ :=
    delivers.owing coin provider isActive
  have recorded : brought (provider, coin) final.recorded = _ :=
    (delivers.tookIn provider coin isActive).symm
  have counted : receipts (final.benchmark.counters coin provider) =
      ((final.benchmark.counters coin provider).observed +
        (final.benchmark.counters coin provider).negativeLatency +
          (final.benchmark.counters coin provider).futureTimestamp, _, _, _, _) := rfl
  rw [counted, observed] at recorded
  refine (delivers.carries.sum_offered fun event => event.bringsTo (provider, coin)).trans ?_
  exact congrArg (· + brought (provider, coin) final.channel.items +
    brought (provider, coin) (final.history.withOutcome .full) +
      brought (provider, coin) (final.history.withOutcome .closed)) recorded

/-- Two tasks, a market event that is recorded, a reconnect that is queued, and after the end of
the main loop a market event that is returned. -/
def sampleActions : List Action :=
  [.dial 0 5, .connect 0 7, .send (.market (Benchmark.quote .foundationWs "7" 6)) 8,
    .finish 0 true 9 9, .receive .stored, .shutdown,
    .send (.market (Benchmark.quote .foundationWs "8" 10)) 10]

def sampleTasks : List StreamTask :=
  [{ kind := .foundation, provider := .foundationWs, coin := "BTC" },
    { kind := .quicknode, provider := .quickNodeGrpc, coin := "BTC" }]

/-- The two market events and the reconnect that were sent are stored, returned and queued. -/
theorem sent_events_accounted_sample :
    ∃ final, run step (start Benchmark.bookProcess sampleTasks 0 0) sampleActions = some final ∧
      brought (.foundationWs, "BTC") final.history.offered = (2, 1, 0, 0, 0) ∧
      final.benchmark.storedArrivals "BTC" .foundationWs = 1 ∧
      brought (.foundationWs, "BTC") final.channel.items = (0, 1, 0, 0, 0) ∧
      brought (.foundationWs, "BTC") (final.history.withOutcome .closed) = (1, 0, 0, 0, 0) ∧
      (final.signals.streams (.foundationWs, "BTC")).queueDropped = 0 ∧
      (final.recorded ++ final.channel.items).Sublist final.history.offered := by
  have took : (run step (start Benchmark.bookProcess sampleTasks 0 0) sampleActions).map
      (fun final => (final.benchmark.counters "BTC" .foundationWs,
        final.benchmark.storedArrivals "BTC" .foundationWs,
        (final.history.withOutcome .full).length)) = some ({ observed := 1 }, 1, 0) := by
    decide
  have left : (run step (start Benchmark.bookProcess sampleTasks 0 0) sampleActions).map
      (fun final => (brought (.foundationWs, "BTC") final.channel.items,
        brought (.foundationWs, "BTC") (final.history.withOutcome .closed))) =
      some ((0, 1, 0, 0, 0), (1, 0, 0, 0, 0)) := by decide
  obtain ⟨final, reached, sums⟩ := Option.map_eq_some_iff.mp took
  obtain ⟨counters, rest⟩ := Prod.mk.inj sums
  obtain ⟨stored, none⟩ := Prod.mk.inj rest
  have dropped := List.length_eq_zero_iff.mp none
  rw [reached, Option.map_some] at left
  obtain ⟨queued, returned⟩ := Prod.mk.inj (Option.some.inj left)
  have active : Provider.foundationWs ∈ Benchmark.bookProcess.providers := by decide
  obtain ⟨offered, counted, _, order⟩ := sent_events_accounted reached active "BTC"
  rw [counters, stored, queued, dropped, returned] at offered
  rw [dropped] at counted
  exact ⟨final, reached, offered, stored, queued, returned, counted, order⟩

end Collector

end MarketBenchmark
