import MarketBenchmark.Outbox.Process

/-!
# The counters of the outbox and what its calls return

A call of `persist_events` looks at the poison flag, builds its batch, waits for
the lock, looks at the flag again and goes on under the lock, operation by
operation; several calls can wait at a time.  The machine of the process makes
the operations.  Here are the counters of `IngestHealth` that they advance, with
the wrapping of atomic integers, and a log of the returned calls with what the
outbox looked like when a call took the lock and when it returned, which no
transition reads.
-/

namespace MarketBenchmark.Outbox

open Foundation

/-! ## Counters -/

/-- The counters of the ingest health that the outbox advances. -/
structure IngestHealth where
  pendingBatches : UInt64
  pendingBytes : UInt64
  batchesDropped : UInt64
  eventsDropped : UInt64
  outboxWriteFailures : UInt64
  outboxCapRejections : UInt64
  deriving DecidableEq

namespace IngestHealth

/-- The counters of a new process that found this queue. -/
def opened (state : OutboxState) : IngestHealth where
  pendingBatches := .ofNat state.files.length
  pendingBytes := .ofNat state.bytes
  batchesDropped := 0
  eventsDropped := 0
  outboxWriteFailures := 0
  outboxCapRejections := 0

def recordDrop (health : IngestHealth) (events : Nat) (capRejection : Bool) : IngestHealth :=
  { health with
    batchesDropped := health.batchesDropped + 1
    eventsDropped := health.eventsDropped + .ofNat events
    outboxCapRejections :=
      if capRejection then health.outboxCapRejections + 1 else health.outboxCapRejections }

def writeFailure (health : IngestHealth) : IngestHealth :=
  { health with outboxWriteFailures := health.outboxWriteFailures + 1 }

def queue (health : IngestHealth) (file : OutboxFile) : IngestHealth :=
  { health with
    pendingBatches := health.pendingBatches + 1
    pendingBytes := health.pendingBytes + .ofNat file.bytes }

def unqueue (health : IngestHealth) (file : OutboxFile) : IngestHealth :=
  { health with
    pendingBatches := health.pendingBatches - 1
    pendingBytes := health.pendingBytes - .ofNat file.bytes }

end IngestHealth

/-! ## Returns -/

/-- What a call returns. -/
inductive PersistResult where
  /-- `Ok(true)` with the batch in the queue. -/
  | persisted
  /-- `Ok(true)` without events. -/
  | nothing
  /-- `Ok(false)` -/
  | dropped
  /-- The error of `ensure_writable`. -/
  | poisoned
  /-- The error of an exhausted ordering key. -/
  | exhausted
  /-- The error of a synchronisation that fails after the rename. -/
  | ambiguous
  deriving DecidableEq

/-- What the outbox looks like at a moment. -/
structure View where
  files : List OutboxFile
  bytes : Nat
  pendingBatches : UInt64
  pendingBytes : UInt64
  names : List Name

/-- The names in the directory. -/
def Machine.names (m : Machine) : List Name := m.disk.visible.entries.map Prod.fst

def view (m : Machine) (p : Process) (health : IngestHealth) : View where
  files := p.state.files
  bytes := p.state.bytes
  pendingBatches := health.pendingBatches
  pendingBytes := health.pendingBytes
  names := m.names

/-- A returned call; the views are those at the lock and at the return. -/
structure PersistReturn where
  events : Nat
  result : PersistResult
  atLock : View
  atReturn : View

/-- The process with its counters.  The calls that wait for the lock are listed with their
events; `locked` is the view when the lock was last taken. -/
structure Ledger (Event : Type) where
  machine : Machine
  health : IngestHealth
  waiting : List (List Event)
  locked : View
  returns : List PersistReturn

namespace Ledger

variable {Event : Type}

/-- No process runs, so there are no counters, and no calls. -/
def idle (m : Machine) : Ledger Event where
  machine := m
  health := .opened { files := [], bytes := 0 }
  waiting := []
  locked := { files := [], bytes := 0, pendingBatches := 0, pendingBytes := 0, names := [] }
  returns := []

def new : Ledger Event := idle .new

/-- A call that took the lock at the view `atLock` returns. -/
def answer (ledger : Ledger Event) (p : Process) (atLock : View) (events : Nat)
    (health : IngestHealth) (result : PersistResult) : Ledger Event :=
  { ledger with
    health := health
    returns := ledger.returns ++
      [{ events := events, result := result, atLock := atLock
         atReturn := view ledger.machine p health }] }

end Ledger

/-! ## Calls -/

/-- What happens to the process. -/
inductive LedgerCall (Event : Type) where
  /-- `persist_events`, up to the lock. -/
  | persist (events : List Event)
  /-- A waiting call takes the lock and goes on to its first operation. -/
  | lock (index now : Nat) (id : List Char)
  /-- An operation of the call that holds the lock. -/
  | operate (action : PersistAction Event)
  | work (action : WorkAction)
  | close
  | exit
  | crash (survived : List (Change Name File)) (torn : Name → Bytes)
  | start (listing : List (Name × File)) (removed : Name → Bool) (succeeds : Bool)

section Steps

variable {Event : Type} (encode : Event → Option Bytes) (config : OutboxConfig)

/-- Whether `persist_events` refuses the events for a cap, and not for one without an encoding. -/
def overCap : Bytes → List Event → Bool
  | _, [] => false
  | body, event :: rest =>
      match encode event with
      | none => false
      | some encoded =>
          axiomMaxBatchBytes < body.length + encoded.length + 1 ∨
            overCap (body ++ encoded ++ [10]) rest

/-- `persist_events`, up to the lock. -/
def Ledger.persist (ledger : Ledger Event) (p : Process) (events : List Event) : Ledger Event :=
  let now := view ledger.machine p ledger.health
  if p.poisoned then ledger.answer p now events.length ledger.health .poisoned
  else if events = [] then ledger.answer p now events.length ledger.health .nothing
  else if (batchOf encode events).isNone then
    ledger.answer p now events.length
      (ledger.health.recordDrop events.length
        (axiomMaxEventsPerBatch < events.length ∨ overCap encode [] events)) .dropped
  else { ledger with waiting := ledger.waiting ++ [events] }

/-- Why `persist_body` returns without an operation. -/
def refusal (p : Process) (batch : Batch) (now : Nat) : Option PersistResult :=
  let nextBytes := p.state.bytes + batch.body.length
  if p.poisoned then some .poisoned
  else if config.maxFiles ≤ p.state.files.length ∨ 2 ^ 64 ≤ nextBytes ∨
      config.maxBytes < nextBytes then
    some .dropped
  else if (nextOrder p.state now).isNone then some .exhausted
  else none

/-- `persist_body` from the lock to its first operation. -/
def Ledger.lock (ledger : Ledger Event) (p : Process) (index now : Nat) (id : List Char) :
    Option (Ledger Event) :=
  ledger.waiting[index]?.bind fun events =>
  (batchOf encode events).bind fun batch =>
  (persistStep encode config ledger.machine p (.submit events now id)).map fun next =>
    let atLock := view ledger.machine p ledger.health
    let locked :=
      { ledger with machine := next, waiting := ledger.waiting.eraseIdx index, locked := atLock }
    match refusal config p batch now with
    | none => locked
    | some result =>
        locked.answer p atLock batch.events
          (if result = .dropped then ledger.health.recordDrop batch.events true
            else ledger.health) result

/-- The return that an operation of `persist_body` leads to, with its counters. -/
def settled (health : IngestHealth) : Persister → PersistAction Event →
    Option (Job × IngestHealth × PersistResult)
  | .abandoning job, .removeTemp _ =>
      some (job, health.writeFailure.recordDrop job.file.events false, .dropped)
  | .syncingDirectory job, .syncDirectory false => some (job, health.writeFailure, .ambiguous)
  | .pushing job, .push => some (job, health.queue job.file, .persisted)
  | _, _ => none

/-- An operation of `persist_body`, and what follows it until the next one. -/
def Ledger.operate (ledger : Ledger Event) (p : Process) (action : PersistAction Event) :
    Option (Ledger Event) :=
  match action with
  | .submit _ _ _ => none
  | action =>
      (persistStep encode config ledger.machine p action).bind fun next =>
      next.process.map fun after =>
        match settled ledger.health p.persister action with
        | none => { ledger with machine := next }
        | some (job, health, result) =>
            { ledger with machine := next }.answer after ledger.locked job.file.events health
              result

/-- The counters after a step of the delivery loop: `acknowledge` takes a file out of the queue. -/
def worked (health : IngestHealth) (p : Process) : WorkAction → IngestHealth
  | .forget =>
      match p.worker with
      | .forgetting file =>
          ((p.state.files.find? fun pending => pending.name = file.name).map health.unqueue).getD
            health
      | _ => health
  | _ => health

/-- One step of the process with its counters; the counters of a new process start with its
queue. -/
def Ledger.step (ledger : Ledger Event) : LedgerCall Event → Option (Ledger Event)
  | .persist events => ledger.machine.process.map fun p => ledger.persist encode p events
  | .lock index now id =>
      ledger.machine.process.bind fun p => ledger.lock encode config p index now id
  | .operate action =>
      ledger.machine.process.bind fun p => ledger.operate encode config p action
  | .work action =>
      ledger.machine.process.bind fun p =>
        (workStep ledger.machine p action).map fun next =>
          { ledger with machine := next, health := worked ledger.health p action }
  | .close =>
      (Outbox.step encode config ledger.machine .close).map fun next =>
        { ledger with machine := next }
  | .exit => (Outbox.step encode config ledger.machine .exit).map Ledger.idle
  | .crash survived torn =>
      (Outbox.step encode config ledger.machine (.crash survived torn)).map Ledger.idle
  | .start listing removed succeeds =>
      (Outbox.step encode config ledger.machine (.start listing removed succeeds)).map fun next =>
        match next.process with
        | none => Ledger.idle next
        | some p => { Ledger.idle next with health := .opened p.state }

end Steps

end MarketBenchmark.Outbox
