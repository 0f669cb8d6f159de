import MarketBenchmark.Collector.Sessions
import MarketBenchmark.Peering.Legs

/-!
# The collector with its peering legs

A task of the peering dataset opens a session and wakes up for one thing at a
time; each turn ends with a drain whose events and gaps are sent.  The peer and
the transport may end a session at any time.  What a session tracked, and the
list of the rounds it closed, are auxiliary: no transition reads them.
-/

namespace MarketBenchmark

open Foundation.HashMaps
open Foundation.Panics

/-- An event of a drain, and what its session had tracked by then. -/
structure ClosedRound where
  event : MarketEvent
  openedMs : Nat
  entries : List LegEntry

/-- Where a call of `run_…_once` is. -/
inductive LegPhase where
  | connecting
  | reading (leg : Leg) (openedMs : Nat) (entries : List LegEntry)
  | over

/-- The variables of a session that was just opened. -/
def StreamTask.leg (task : StreamTask) (openedMs now : Nat) : Option Leg :=
  match task.kind with
  | .peering => some (.dial .empty (.new task.provider task.coin openedMs))
  | .peeringTap =>
      some (.tap
        { flows := ∅
          assembly := .new task.provider task.coin openedMs
          lastBytes := now })
  | .vpcDecoded => some (.decoded (.new task.coin))
  | _ => none

structure PeeredCollector where
  collector : Collector
  legs : Nat → LegPhase
  closed : List ClosedRound

inductive PeeredAction where
  | loop (action : Action)
  | opened (index nowMs openedMs now : Nat)
  | turn (index : Nat) (input : LegInput) (order : IterationOrder) (now nowMs : Nat)

namespace PeeredCollector

def start (config : BenchmarkConfig) (tasks : List StreamTask) (now wallNowMs : Nat) :
    PeeredCollector where
  collector := .start config tasks now wallNowMs
  legs := fun _ => .connecting
  closed := []

def setLeg (peered : PeeredCollector) (index : Nat) (phase : LegPhase) : PeeredCollector :=
  { peered with legs := Function.update peered.legs index phase }

/-- The end of a turn: what the drain returned is sent. -/
def send (peered : PeeredCollector) (index : Nat) (leg : Leg) (openedMs : Nat)
    (entries : List LegEntry) (order : IterationOrder) (now nowMs : Nat) :
    Option PeeredCollector :=
  let drained := leg.drainReady order now
  (Collector.sendAll nowMs peered.collector (leg.events drained.2)).map fun result =>
    let closed := drained.2.1.map fun event =>
      { event := event, openedMs := openedMs, entries := entries : ClosedRound }
    { peered with collector := result.1, closed := peered.closed ++ closed }.setLeg index
      (if result.2 then .reading drained.1 openedMs entries else .over)

variable (libraries : LegLibraries)

/-- One action: of the loop of a task or of the main loop, of a session that opens, or a turn. -/
def step (peered : PeeredCollector) : PeeredAction → Option PeeredCollector
  | .loop action =>
      (peered.collector.loop action).map fun collector =>
        let looped : PeeredCollector := { peered with collector := collector }
        match action.finished with
        | some index => looped.setLeg index .connecting
        | none => looped
  | .opened index nowMs openedMs now =>
      peered.collector.tasks[index]?.bind fun task =>
        match task.phase, peered.legs index with
        | .running false, .connecting =>
            (task.leg openedMs now).bind fun leg =>
              (peered.collector.step (.connect index nowMs)).map fun collector =>
                { peered with collector := collector }.setLeg index (.reading leg openedMs [])
        | _, _ => none
  | .turn index input order now nowMs =>
      match peered.legs index with
      | .reading leg openedMs entries =>
          (leg.handle libraries input).bind fun
            | .fails => some (peered.setLeg index .over)
            | .goesOn leg fresh =>
                peered.send index leg openedMs (entries ++ fresh) order now nowMs
      | _ => none

end PeeredCollector

end MarketBenchmark
