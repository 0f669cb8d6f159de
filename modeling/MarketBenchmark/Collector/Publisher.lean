import MarketBenchmark.Benchmark.Outcomes
import MarketBenchmark.Outbox.Fifo
import MarketBenchmark.Outbox.Accounting

/-!
# The main loop and its outbox

`publish_window` takes the rows of a window from the benchmark, waits until the
outbox has answered, and then commits or rejects what it had prepared; an error
of the outbox ends the process.  While it waits the main loop does nothing else,
and the worker of the outbox goes on.  The list of publications, and the state
of the benchmark before a submission, are auxiliary.
-/

namespace MarketBenchmark

open Foundation.HashMaps
open Outbox

/-- What `publish_window` is called with. -/
structure Cycle where
  order : IterationOrder
  now : Nat
  wallNowMs : Nat
  signals : RuntimeSignals
  clock : ClockHealthSnapshot

def Cycle.activity (cycle : Cycle) (accepted : Bool) : Benchmark.Activity :=
  .publishWindow cycle.order cycle.now cycle.wallNowMs cycle.signals cycle.clock accepted

/-- A window that was submitted; `returned` calls had returned before. -/
structure Submission where
  cycle : Cycle
  before : Benchmark
  rows : List LatencyWindowEvent
  returned : Nat

structure Publisher where
  benchmark : Benchmark
  ledger : Ledger LatencyWindowEvent
  submission : Option Submission
  published : List Benchmark.Publication

inductive PublisherAction where
  | record (order : IterationOrder) (event : ProbeEvent)
  | tick (order : IterationOrder) (now : Nat)
  | submit (cycle : Cycle)
  | lock (now : Nat) (id : List Char)
  | operate (action : PersistAction LatencyWindowEvent)
  | work (action : WorkAction)
  | settle

/-- The value of `submit`, unless it is an error. -/
def Outbox.PersistResult.accepted : PersistResult → Option Bool
  | .persisted | .nothing => some true
  | .dropped => some false
  | .poisoned | .exhausted | .ambiguous => none

namespace Publisher

def start (config : BenchmarkConfig) (now wallNowMs : Nat) (ledger : Ledger LatencyWindowEvent) :
    Publisher where
  benchmark := .new config now wallNowMs
  ledger := ledger
  submission := none
  published := []

/-- `publish_window` up to its await. -/
def submit (encode : LatencyWindowEvent → Option Bytes) (config : OutboxConfig)
    (publisher : Publisher) (cycle : Cycle) : Option Publisher :=
  (publisher.benchmark.windowEvents cycle.order cycle.now cycle.wallNowMs cycle.signals
    cycle.clock).bind fun result =>
  (publisher.ledger.step encode config (.persist result.2)).map fun ledger =>
    { publisher with
      benchmark := result.1
      ledger := ledger
      submission := some
        { cycle := cycle
          before := publisher.benchmark
          rows := result.2
          returned := publisher.ledger.returns.length } }

/-- `publish_window` after the answer. -/
def settle (publisher : Publisher) (submission : Submission) (accepted : Bool) : Publisher :=
  { publisher with
    benchmark :=
      if accepted then publisher.benchmark.commitPreparedPublication.1
      else publisher.benchmark.rejectPreparedPublication
    submission := none
    published := publisher.published ++
      submission.before.committed (submission.cycle.activity accepted) }

/-- One action of the main loop, or of the outbox for it. -/
def step (encode : LatencyWindowEvent → Option Bytes) (config : OutboxConfig)
    (publisher : Publisher) : PublisherAction → Option Publisher
  | .record order event =>
      if publisher.submission.isSome then none
      else (publisher.benchmark.act (.record order event)).map fun benchmark =>
        { publisher with benchmark := benchmark }
  | .tick order now =>
      if publisher.submission.isSome then none
      else (publisher.benchmark.act (.tick order now)).map fun benchmark =>
        { publisher with benchmark := benchmark }
  | .submit cycle =>
      if publisher.submission.isSome then none else publisher.submit encode config cycle
  | .lock now id =>
      (publisher.ledger.step encode config (.lock 0 now id)).map fun ledger =>
        { publisher with ledger := ledger }
  | .operate action =>
      (publisher.ledger.step encode config (.operate action)).map fun ledger =>
        { publisher with ledger := ledger }
  | .work action =>
      (publisher.ledger.step encode config (.work action)).map fun ledger =>
        { publisher with ledger := ledger }
  | .settle =>
      publisher.submission.bind fun submission =>
        publisher.ledger.returns[submission.returned]?.bind fun returned =>
          returned.result.accepted.map fun accepted => publisher.settle submission accepted

end Publisher

end MarketBenchmark
