import MarketBenchmark.Feeds.Meanings
import MarketBenchmark.Collector.Process

/-!
# Sessions of the compared feeds

A task of the book and fills datasets reads a websocket, a gRPC stream or the
files of the node.  Its loop wakes up for a message, for its heartbeat or for
the timeout around a read; one turn is what it does then.  The peer and the
transport may end a session at any time.  The list of what was heard is
auxiliary: no transition reads it.
-/

namespace MarketBenchmark

open Feeds
open Foundation.Channels
open Foundation.HashMaps

/-- `WS_READ_TIMEOUT`. -/
def wsReadTimeout : Nat := fromSecs 60

/-- `read_deadline_exceeded`. -/
def readDeadlineExceeded (lastFrame now : Nat) : Bool := decide (wsReadTimeout ≤ now - lastFrame)

/-- What the loop of a session wakes up for; it passes over pings, texts that are no frame,
updates without data and lines that are no text. -/
inductive Wake where
  | heartbeat
  | elapsed
  | message (message : Message)
  | ignored

/-- The clocks of a turn: when the loop woke up, and when the events were ready. -/
structure TurnClock where
  now : Nat
  received : Nat
  receivedWallMs : Nat

/-- The variables of a loop; only Hydromancer's has a connection of its own. -/
structure Session where
  lastFrame : Nat
  connection : HydromancerConnection := {}

inductive Turn where
  | goesOn (session : Session) (connects : Bool) (events : List ProbeEvent)
  | ends (resume : HydromancerResume)

namespace Session

def resume (session : Session) : HydromancerResume := session.connection.resume

def hear (session : Session) (now : Nat) : Session := { session with lastFrame := now }

/-- The heartbeat branch. -/
def beat (session : Session) (now : Nat) : Turn :=
  if readDeadlineExceeded session.lastFrame now then .ends session.resume
  else .goesOn session false []

/-- A message whose keys are sent as they are. -/
def tell (session : Session) (provider : Provider) (coin : String) (clock : TurnClock)
    (keys : List EventKey) : Turn :=
  .goesOn (session.hear clock.now) false
    ((keys.filter fun key => decide (key.coin = coin)).map fun key =>
      .market
        { provider := provider
          key := key
          received := clock.received
          receivedWallMs := clock.receivedWallMs })

end Session

section Turns

variable (decimals : Decimals) (serde : Serde Json) (dataset : Dataset) (coin : String)

/-- The keys that Foundation's loop takes from a frame. -/
def foundationKeys (frame : HydromancerFrame) : List EventKey :=
  if dataset = .fills then parseWsTrades decimals serde frame.toWsFrame
  else ((parseWsBook decimals serde frame.toWsFrame dataset).map ParsedWsBook.key).toList

/-- `run_foundation_once` -/
def foundationTurn (session : Session) (clock : TurnClock) : Wake → Option Turn
  | .heartbeat => some (session.beat clock.now)
  | .ignored => some (.goesOn (session.hear clock.now) false [])
  | .message (.frame frame) =>
      if frame.channel = some "error" then some (.ends session.resume)
      else some (session.tell .foundationWs coin clock (foundationKeys decimals serde dataset frame))
  | _ => none

/-- `run_hydromancer_once` -/
def hydromancerTurn (session : Session) (clock : TurnClock) : Wake → Option Turn
  | .heartbeat => some (session.beat clock.now)
  | .ignored => some (.goesOn (session.hear clock.now) false [])
  | .message (.frame frame) =>
      let delivery : Delivery :=
        { frame := some frame
          received := clock.received
          receivedWallMs := clock.receivedWallMs }
      match session.connection.onMessage decimals serde dataset coin delivery with
      | .error resume => some (.ends resume)
      | .ok (connection, events) =>
          some (.goesOn { lastFrame := clock.now, connection := connection }
            (!session.connection.connected && connection.connected) events)
  | _ => none

/-- `run_quicknode_once`; the order books have a timeout around the read, the fills a heartbeat. -/
def quicknodeTurn (order : IterationOrder) (provider : Provider) (session : Session)
    (clock : TurnClock) (wake : Wake) : Option Turn :=
  match dataset, wake with
  | .bbo, .message (.bbo update) =>
      some (session.tell provider coin clock (quicknodeBboKey decimals coin update).toList)
  | .l2book, .message (.l2 update) =>
      some (session.tell provider coin clock (quicknodeL2Key decimals coin update).toList)
  | .bbo, .elapsed | .l2book, .elapsed =>
      if readDeadlineExceeded session.lastFrame clock.now then some (.ends session.resume)
      else none
  | .fills, .heartbeat => some (session.beat clock.now)
  | .fills, .ignored => some (.goesOn (session.hear clock.now) false [])
  | .fills, .message (.block payload) =>
      some (session.tell provider coin clock
        (parseQuicknodeFillBatch decimals serde order payload))
  | _, _ => none

/-- One line of `run_vpc_fills_once`. -/
def vpcFillsTurn (order : IterationOrder) (session : Session) (clock : TurnClock) :
    Wake → Option Turn
  | .ignored => some (.goesOn (session.hear clock.now) false [])
  | .message (.block line) =>
      some (session.tell .quickNodeVpc coin clock
        (parseQuicknodeFillBatch decimals serde order line))
  | _ => none

/-- The provider that the events of a task carry. -/
def StreamTask.stamp (task : StreamTask) : Provider :=
  match task.kind with
  | .foundation => .foundationWs
  | .hydromancer => .hydromancerWs
  | .vpcFills => .quickNodeVpc
  | _ => task.provider

/-- A turn of the task's loop; undefined where the loop does not wake up, and for the tasks of the
other datasets. -/
def StreamTask.turn (order : IterationOrder) (task : StreamTask) (session : Session)
    (clock : TurnClock) (wake : Wake) : Option Turn :=
  match task.kind with
  | .foundation => foundationTurn decimals serde dataset task.coin session clock wake
  | .hydromancer => hydromancerTurn decimals serde dataset task.coin session clock wake
  | .quicknode =>
      quicknodeTurn decimals serde dataset task.coin order task.provider session clock wake
  | .vpcFills => vpcFillsTurn decimals serde task.coin order session clock wake
  | _ => none

end Turns

/-! ## The collector with its sessions -/

/-- Where a call of `run_…_once` is. -/
inductive FeedPhase where
  | connecting
  | reading (session : Session)
  | over

def FeedPhase.session : FeedPhase → Option Session
  | .reading session => some session
  | _ => none

/-- The session of a task, and what survives it. -/
structure Feed where
  phase : FeedPhase := .connecting
  resume : HydromancerResume := {}

/-- A message that a task has handled, and the clocks of its events. -/
structure Heard where
  stream : Stream
  message : Message
  received : Nat
  receivedWallMs : Nat

structure FedCollector where
  collector : Collector
  feeds : Nat → Feed
  heard : List Heard

inductive FedAction where
  | loop (action : Action)
  | opened (index now nowMs : Nat)
  | turn (index : Nat) (order : IterationOrder) (wake : Wake) (clock : TurnClock) (nowMs : Nat)

/-- The task whose `run_…_once` returns. -/
def Action.finished : Action → Option Nat
  | .finish index _ _ _ => some index
  | _ => none

namespace Collector

/-- What the loop of a task or the main loop does; only sessions connect and send. -/
def loop (collector : Collector) : Action → Option Collector
  | .connect _ _ | .send _ _ => none
  | action => collector.step action

/-- Send one event after the other, until the queue is found closed. -/
def sendAll (nowMs : Nat) : Collector → List ProbeEvent → Option (Collector × Bool)
  | collector, [] => some (collector, true)
  | collector, event :: rest =>
      (collector.send event nowMs).bind fun result =>
        match result.2 with
        | .closed => some (result.1, false)
        | _ => sendAll nowMs result.1 rest

end Collector

namespace FedCollector

def start (config : BenchmarkConfig) (tasks : List StreamTask) (now wallNowMs : Nat) :
    FedCollector where
  collector := .start config tasks now wallNowMs
  feeds := fun _ => {}
  heard := []

def setFeed (fed : FedCollector) (index : Nat) (feed : Feed) : FedCollector :=
  { fed with feeds := Function.update fed.feeds index feed }

/-- What the message of a turn is remembered as. -/
def hears (task : StreamTask) (clock : TurnClock) : Wake → List Heard
  | .message message =>
      [{ stream := (task.stamp, task.coin)
         message := message
         received := clock.received
         receivedWallMs := clock.receivedWallMs }]
  | _ => []

/-- What a task does with its turn: the guard of a connection, then the events. -/
def takeTurn (fed : FedCollector) (index : Nat) (task : StreamTask) (wake : Wake)
    (clock : TurnClock) (nowMs : Nat) : Turn → Option FedCollector
  | .ends resume => some (fed.setFeed index { phase := .over, resume := resume })
  | .goesOn session connects events =>
      (if connects then fed.collector.step (.connect index nowMs) else some fed.collector).bind
        fun collector => (Collector.sendAll nowMs collector events).map fun result =>
          let fed : FedCollector :=
            { fed with collector := result.1, heard := fed.heard ++ hears task clock wake }
          fed.setFeed index
            { phase := if result.2 then .reading session else .over, resume := session.resume }

variable (decimals : Decimals) (serde : Serde Json) (dataset : Dataset)

/-- One action: of the loop of a task or of the main loop, of a session that opens, or a turn. -/
def step (fed : FedCollector) : FedAction → Option FedCollector
  | .loop action =>
      (fed.collector.loop action).map fun collector =>
        let looped : FedCollector := { fed with collector := collector }
        match action.finished with
        | some index =>
            looped.setFeed index { phase := .connecting, resume := (fed.feeds index).resume }
        | none => looped
  | .opened index now nowMs =>
      fed.collector.tasks[index]?.bind fun task =>
        match task.phase, (fed.feeds index).phase with
        | .running false, .connecting =>
            let session : Session :=
              { lastFrame := now, connection := { resume := (fed.feeds index).resume } }
            let opened :=
              fed.setFeed index { phase := .reading session, resume := session.resume }
            -- Hydromancer's guard waits for the acknowledgement
            if task.kind = .hydromancer then some opened
            else
              (fed.collector.step (.connect index nowMs)).map fun collector =>
                { opened with collector := collector }
        | _, _ => none
  | .turn index order wake clock nowMs =>
      fed.collector.tasks[index]?.bind fun task =>
        (fed.feeds index).phase.session.bind fun session =>
          (task.turn decimals serde dataset order session clock wake).bind
            (fed.takeTurn index task wake clock nowMs)

end FedCollector

end MarketBenchmark
