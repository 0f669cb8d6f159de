import MarketBenchmark.Collector.Sessions
import MarketBenchmark.Feeds.MempoolBundles

/-!
# The collector with its mempool join

On the box the mempool dataset has two legs: the stream of the endpoint and the
bundle lines of the sentry.  Neither sends to the main loop.  Both feed the join
task of their coin through a queue of its own, on which they wait while it is
full, and the join task sends what it emits.  The list of what was seen is
auxiliary: no transition reads it.
-/

namespace MarketBenchmark

open Feeds
open Foundation.Channels
open Foundation.HashMaps

/-- `JOIN_QUEUE`. -/
def joinQueue : Nat := 8192

/-- What a leg reads: data of the endpoint's stream, or a line of the sentry's. -/
inductive BundleMessage where
  | payload (data : String)
  | line (bytes : List UInt8)

/-- What the loop of a leg wakes up for; it passes over updates without data. -/
inductive BundleWake where
  | heartbeat
  | ignored
  | message (message : BundleMessage)

/-- A message that a leg has read, and the clocks of its input. -/
structure SeenBundle where
  coin : String
  message : BundleMessage
  received : Nat
  receivedWallMs : Nat

/-- What a turn of a leg does: the session fails, or it goes on and offers an input. -/
inductive BundleTurn where
  | fails
  | goesOn (lastFrame : Nat) (seen : Option SeenBundle)

/-- The task of a join. -/
structure JoinTask where
  queue : Channel JoinInput
  join : MempoolJoin

def JoinTask.new (coin : String) : JoinTask where
  queue := .empty joinQueue
  join := .new coin

section Legs

variable (serde : BundleSerde) (chrono : Chrono)

/-- The input that a message is read as. -/
def SeenBundle.input (seen : SeenBundle) : Option JoinInput :=
  match seen.message with
  | .payload data =>
      (parseQuicknodeMempoolBundle serde chrono data seen.coin).bind fun key =>
        match key.content with
        | .mempool txHash => some (.grpc txHash seen.received seen.receivedWallMs)
        | _ => none
  | .line bytes => bundleInput serde bytes seen.coin seen.received seen.receivedWallMs

/-- A turn of `run_quicknode_once` for the mempool dataset, or of `run_bundle_lines_once`;
undefined where the loop does not wake up, and for the other tasks. -/
def StreamTask.bundleTurn (task : StreamTask) (lastFrame : Nat) (clock : TurnClock) :
    BundleWake → Option BundleTurn
  | .heartbeat =>
      if task.kind = .quicknode then
        if readDeadlineExceeded lastFrame clock.now then some .fails
        else some (.goesOn lastFrame none)
      else none
  | .ignored => if task.kind = .quicknode then some (.goesOn clock.now none) else none
  | .message message =>
      let seen : SeenBundle :=
        { coin := task.coin
          message := message
          received := clock.received
          receivedWallMs := clock.receivedWallMs }
      match task.kind, message with
      | .quicknode, .payload _ | .bundleLines, .line _ => some (.goesOn clock.now (some seen))
      | _, _ => none

end Legs

/-! ## The collector with its join -/

/-- Where a call of `run_…_once` is. -/
inductive BundlePhase where
  | connecting
  | reading (lastFrame : Nat)
  | over

structure JoinedCollector where
  collector : Collector
  legs : Nat → BundlePhase
  joins : String → JoinTask
  seen : List SeenBundle

inductive JoinedAction where
  | loop (action : Action)
  | opened (index now nowMs : Nat)
  | turn (index : Nat) (wake : BundleWake) (clock : TurnClock)
  | offered (coin : String) (now nowMs : Nat)
  | expired (coin : String) (order : IterationOrder) (now nowMs : Nat)

namespace JoinedCollector

def start (config : BenchmarkConfig) (tasks : List StreamTask) (now wallNowMs : Nat) :
    JoinedCollector where
  collector := .start config tasks now wallNowMs
  legs := fun _ => .connecting
  joins := .new
  seen := []

def setLeg (joined : JoinedCollector) (index : Nat) (phase : BundlePhase) : JoinedCollector :=
  { joined with legs := Function.update joined.legs index phase }

def setJoin (joined : JoinedCollector) (coin : String) (task : JoinTask) : JoinedCollector :=
  { joined with joins := Function.update joined.joins coin task }

/-- A leg sends its input to the join of the coin; it waits while the queue is full, and ends when
the join has returned. -/
def feed (joined : JoinedCollector) (index lastFrame : Nat) (coin : String) (input : JoinInput) :
    Option JoinedCollector :=
  let task := joined.joins coin
  let offered := task.queue.trySend input
  match offered.2 with
  | .full => none
  | .closed => some (joined.setLeg index .over)
  | .sent =>
      some ((joined.setJoin coin { task with queue := offered.1 }).setLeg index
        (.reading lastFrame))

/-- The join of the coin sends events, and returns when the queue of the main loop is closed. -/
def send (joined : JoinedCollector) (coin : String) (task : JoinTask) (nowMs : Nat)
    (events : List ProbeEvent) : Option JoinedCollector :=
  (Collector.sendAll nowMs joined.collector events).map fun result =>
    { joined with collector := result.1 }.setJoin coin
      (if result.2 then task else { task with queue := task.queue.close })

variable (serde : BundleSerde) (chrono : Chrono)

/-- One action: of the loop of a task or of the main loop, of a session that opens, a turn of a
leg, or a branch of a join. -/
def step (joined : JoinedCollector) : JoinedAction → Option JoinedCollector
  | .loop action =>
      (joined.collector.loop action).map fun collector =>
        let looped : JoinedCollector := { joined with collector := collector }
        match action.finished with
        | some index => looped.setLeg index .connecting
        | none => looped
  | .opened index now nowMs =>
      joined.collector.tasks[index]?.bind fun task =>
        match task.phase, joined.legs index with
        | .running false, .connecting =>
            (joined.collector.step (.connect index nowMs)).map fun collector =>
              { joined with collector := collector }.setLeg index (.reading now)
        | _, _ => none
  | .turn index wake clock =>
      joined.collector.tasks[index]?.bind fun task =>
        match joined.legs index with
        | .reading lastFrame =>
            (task.bundleTurn lastFrame clock wake).bind fun
              | .fails => some (joined.setLeg index .over)
              | .goesOn lastFrame none => some (joined.setLeg index (.reading lastFrame))
              | .goesOn lastFrame (some seen) =>
                  let joined := { joined with seen := joined.seen ++ [seen] }
                  match seen.input serde chrono with
                  | none => some (joined.setLeg index (.reading lastFrame))
                  | some input => joined.feed index lastFrame seen.coin input
        | _ => none
  | .offered coin now nowMs =>
      let task := joined.joins coin
      if task.queue.closed then none
      else
        task.queue.receive.bind fun received =>
          let result := task.join.offer received.1 now
          joined.send coin { queue := received.2, join := result.1 } nowMs
            (result.2.map .market)
  | .expired coin order now nowMs =>
      let task := joined.joins coin
      if task.queue.closed then none
      else
        let result := task.join.expire order now
        joined.send coin { task with join := result.1 } nowMs
          ((if 0 < result.2.2 then [.sequenceGap .quickNodeVpc coin result.2.2] else []) ++
            result.2.1.map .market)

end JoinedCollector

end MarketBenchmark
