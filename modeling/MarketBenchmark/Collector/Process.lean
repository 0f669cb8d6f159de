import MarketBenchmark.Collector.Sender
import MarketBenchmark.Benchmark.Outcomes

/-!
# The collector process

Stream tasks dial, send and dial again after a pause; the main loop receives
their events from the queue, settles cohorts once a second and publishes.  One
action is what one task, or one branch of the main loop, does between two
suspensions, so every interleaving of them is a run.  The journal and the list
of recorded events are auxiliary: no transition reads them.
-/

namespace MarketBenchmark

open Foundation.Channels
open Foundation.HashMaps

/-! ## Reconnecting -/

def initialReconnectBackoff : Nat := fromMillis 500
def maxReconnectBackoff : Nat := fromSecs 15
def healthyConnection : Nat := fromSecs 30

structure ReconnectBackoff where
  next : Nat := initialReconnectBackoff
  deriving DecidableEq, Repr

namespace ReconnectBackoff

def afterConnection (backoff : ReconnectBackoff) (connectedFor : Nat) : Nat × ReconnectBackoff :=
  let delay := if healthyConnection ≤ connectedFor then initialReconnectBackoff else backoff.next
  (delay, { next := min (delay * 2) maxReconnectBackoff })

end ReconnectBackoff

/-! ## Stream tasks -/

/-- The functions that dial in a loop. -/
inductive TaskKind where
  | foundation
  | hydromancer
  | quicknode
  | vpcFills
  | peering
  | peeringTap
  | vpcDecoded
  | bundleLines
  deriving DecidableEq, Repr

/-- The task times its connection by the signals of its stream, and not by its own clock. -/
def TaskKind.timesBySignals : TaskKind → Bool
  | .foundation | .hydromancer | .quicknode => true
  | .vpcFills | .peering | .peeringTap | .vpcDecoded | .bundleLines => false

/-- Where the loop of a task is. -/
inductive Phase where
  | ready
  | running (guarded : Bool)
  | sleeping (wakeAt : Nat)
  | returned
  deriving DecidableEq, Repr

structure StreamTask where
  kind : TaskKind
  provider : Provider
  coin : String
  phase : Phase := .ready
  generation : Nat := 0
  started : Nat := 0
  backoff : ReconnectBackoff := {}
  deriving DecidableEq, Repr

namespace StreamTask

def stream (task : StreamTask) : Stream := (task.provider, task.coin)

/-- The task may call its `run_…_once` now. -/
def mayDial (task : StreamTask) (now : Nat) : Bool :=
  match task.phase with
  | .ready => true
  | .sleeping wakeAt => decide (wakeAt ≤ now)
  | _ => false

/-- The call of `run_…_once`. -/
def dial (task : StreamTask) (signal : StreamSignal) (now : Nat) : StreamTask :=
  { task with
    phase := .running false
    generation := signal.connectionGeneration
    started := now }

/-- `connection_duration`, or the time since the call. -/
def connectedFor (task : StreamTask) (signal : StreamSignal) (now nowMs : Nat) : Nat :=
  if task.kind.timesBySignals then
    if signal.connectionGeneration = task.generation ∨ signal.connectedAtWallMs = 0 then 0
    else fromMillis (nowMs - signal.connectedAtWallMs)
  else now - task.started

/-- Sleep before the next call. -/
def pause (task : StreamTask) (signal : StreamSignal) (now nowMs : Nat) : StreamTask :=
  let waited := task.backoff.afterConnection (task.connectedFor signal now nowMs)
  { task with phase := .sleeping (now + waited.1), backoff := waited.2 }

end StreamTask

/-! ## The process -/

inductive Entry where
  | connected (stream : Stream)
  | disconnected (stream : Stream)
  | offered (event : ProbeEvent) (outcome : Outcome) (nowMs : Nat)

def Entry.offer : Entry → Option (ProbeEvent × Outcome)
  | .offered event outcome _ => some (event, outcome)
  | _ => none

structure Collector where
  signals : SignalTable
  channel : Channel ProbeEvent
  tasks : List StreamTask
  benchmark : Benchmark
  journal : List Entry
  recorded : List ProbeEvent

inductive Action where
  | dial (index : Nat) (now : Nat)
  | connect (index : Nat) (nowMs : Nat)
  | send (event : ProbeEvent) (nowMs : Nat)
  | finish (index : Nat) (ok : Bool) (now nowMs : Nat)
  | receive (order : IterationOrder)
  | tick (order : IterationOrder) (now : Nat)
  | publish (order : IterationOrder) (now wallNowMs : Nat) (clock : ClockHealthSnapshot)
      (accepted : Bool)
  | shutdown

namespace Collector

/-- `main` up to its loop. -/
def start (config : BenchmarkConfig) (tasks : List StreamTask) (now wallNowMs : Nat) :
    Collector where
  signals := .new config.coins
  channel := .empty eventQueueCapacity
  tasks := tasks
  benchmark := .new config now wallNowMs
  journal := []
  recorded := []

/-- The offers of the journal and the recorded events, as a history of the queue. -/
def history (collector : Collector) : History ProbeEvent where
  offers := collector.journal.filterMap Entry.offer
  received := collector.recorded

/-- A task sends an event. -/
def send (collector : Collector) (event : ProbeEvent) (nowMs : Nat) :
    Option (Collector × Outcome) :=
  (collector.signals.send collector.channel event nowMs).map fun result =>
    ({ collector with
        signals := result.1
        channel := result.2.1
        journal := collector.journal ++ [.offered event result.2.2 nowMs] }, result.2.2)

/-- A task takes the guard of its connection. -/
def guard (collector : Collector) (task : StreamTask) (signal : StreamSignal) (nowMs : Nat) :
    Collector :=
  { collector with
    signals := collector.signals.store task.stream (signal.connected nowMs)
    journal := collector.journal ++ [.connected task.stream] }

/-- A task drops the guard of its connection, if it has one. -/
def release (collector : Collector) (task : StreamTask) (guarded : Bool) : Collector :=
  if guarded then
    { collector with
      signals := collector.signals.store task.stream
        (collector.signals.streams task.stream).disconnected
      journal := collector.journal ++ [.disconnected task.stream] }
  else collector

def setTask (collector : Collector) (index : Nat) (task : StreamTask) : Collector :=
  { collector with tasks := collector.tasks.set index task }

/-- A `run_…_once` returns: the guard is gone, and the loop tells of the reconnect and sleeps. -/
def finish (collector : Collector) (index : Nat) (task : StreamTask) (guarded ok : Bool)
    (now nowMs : Nat) : Option Collector :=
  let released := collector.release task guarded
  -- the node tail returns `Ok` only when the queue is gone
  if task.kind = .vpcFills ∧ ok then
    some (released.setTask index { task with phase := .returned })
  else
    (released.send (.reconnect task.provider task.coin) nowMs).map fun result =>
      match result.2 with
      | .closed => result.1.setTask index { task with phase := .returned }
      | _ => result.1.setTask index
          (task.pause (result.1.signals.streams task.stream) now nowMs)

/-- The main loop takes an event out of the queue. -/
def take (collector : Collector) (event : ProbeEvent) (rest : Channel ProbeEvent) : Collector :=
  { collector with channel := rest, recorded := collector.recorded ++ [event] }

/-- The main loop calls the benchmark. -/
def act (collector : Collector) (activity : Benchmark.Activity) : Option Collector :=
  (collector.benchmark.act activity).map fun benchmark => { collector with benchmark := benchmark }

/-- One action; undefined where it cannot happen or the code panics. -/
def step (collector : Collector) : Action → Option Collector
  | .dial index now =>
      collector.tasks[index]?.bind fun task =>
        if task.mayDial now then
          (collector.signals.stream task.stream).map fun signal =>
            collector.setTask index (task.dial signal now)
        else none
  | .connect index nowMs =>
      collector.tasks[index]?.bind fun task =>
        if task.phase = .running false then
          (collector.signals.stream task.stream).map fun signal =>
            (collector.guard task signal nowMs).setTask index { task with phase := .running true }
        else none
  | .send event nowMs =>
      match event with
      -- only the loop of a task tells of a reconnect
      | .reconnect _ _ => none
      | _ => (collector.send event nowMs).map Prod.fst
  | .finish index ok now nowMs =>
      collector.tasks[index]?.bind fun task =>
        match task.phase with
        | .running guarded => collector.finish index task guarded ok now nowMs
        | _ => none
  | .receive order =>
      if collector.channel.closed then none
      else
        collector.channel.receive.bind fun result =>
          (collector.take result.1 result.2).act (.record order result.1)
  | .tick order now =>
      if collector.channel.closed then none
      else collector.act (.tick order now)
  -- `publish_window`, with the answer of the outbox
  | .publish order now wallNowMs clock accepted =>
      if collector.channel.closed then none
      else collector.act
        (.publishWindow order now wallNowMs collector.signals.snapshots clock accepted)
  | .shutdown => some { collector with channel := collector.channel.close }

end Collector

end MarketBenchmark
