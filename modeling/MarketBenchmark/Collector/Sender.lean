import MarketBenchmark.Benchmark.Publication
import MarketBenchmark.Foundation.Channels

/-!
# Stream signals and the probe sender

Every task holds a sender.  An event it sends is offered to the event queue at
once: a full queue drops the event, counts the drop at its stream and lets the
task go on.  The sender also keeps the signals of each stream, which a
publication reads.  A table of signals has the coins it was made for, and asking
for a stream of another coin panics.
-/

namespace MarketBenchmark

open Foundation.Channels

/-- `EVENT_QUEUE_CAPACITY`. -/
def eventQueueCapacity : Nat := 16384

@[ext]
structure StreamSignal where
  connectionUp : Bool := false
  lastMessageWallMs : Nat := 0
  queueDropped : Nat := 0
  lastQueueDropWallMs : Nat := 0
  connectionGeneration : Nat := 0
  connectedAtWallMs : Nat := 0
  deriving DecidableEq, Repr

/-- The part of `StreamSignal::snapshot` that a publication reads. -/
def StreamSignal.snapshot (signal : StreamSignal) : StreamSignalSnapshot where
  connectionUp := signal.connectionUp
  lastMessageWallMs := signal.lastMessageWallMs
  queueDropped := signal.queueDropped
  lastQueueDropWallMs := signal.lastQueueDropWallMs

/-- One provider's feed of one coin. -/
abbrev Stream : Type := Provider × String

/-- The stream whose signals an event moves. -/
def ProbeEvent.stream : ProbeEvent → Stream
  | .market event => (event.provider, event.key.coin)
  | .reconnect provider coin => (provider, coin)
  | .sequenceGap provider coin _ => (provider, coin)
  | .replay provider coin _ _ => (provider, coin)

/-! ## Signals -/

/-- The registered coins and the signal of every stream. -/
structure SignalTable where
  coins : List String
  streams : Stream → StreamSignal

namespace SignalTable

/-- `RuntimeSignals::new`. -/
def new (coins : List String) : SignalTable where
  coins := coins
  streams := fun _ => {}

/-- `RuntimeSignals::stream`; undefined where the code panics. -/
def stream (table : SignalTable) (stream : Stream) : Option StreamSignal :=
  if stream.2 ∈ table.coins then some (table.streams stream) else none

def store (table : SignalTable) (stream : Stream) (signal : StreamSignal) : SignalTable :=
  { table with streams := Function.update table.streams stream signal }

/-- What `RuntimeSignals::snapshot` returns for each stream. -/
def snapshots (table : SignalTable) : RuntimeSignals :=
  fun provider coin => (table.streams (provider, coin)).snapshot

@[simp]
theorem store_coins (table : SignalTable) (stream : Stream) (signal : StreamSignal) :
    (table.store stream signal).coins = table.coins := rfl

@[simp]
theorem store_streams (table : SignalTable) (stream : Stream) (signal : StreamSignal) :
    (table.store stream signal).streams = Function.update table.streams stream signal := rfl

theorem stream_eq_some {table : SignalTable} {stream : Stream} {signal : StreamSignal}
    (found : table.stream stream = some signal) :
    stream.2 ∈ table.coins ∧ table.streams stream = signal := by
  unfold SignalTable.stream at found
  split at found
  · next registered => exact ⟨registered, Option.some.inj found⟩
  · cases found

end SignalTable

/-! ## Sending -/

namespace StreamSignal

/-- A market event marks the stream as alive before it is offered. -/
def heard (signal : StreamSignal) : ProbeEvent → StreamSignal
  | .market event => { signal with lastMessageWallMs := event.receivedWallMs }
  | _ => signal

def dropped (signal : StreamSignal) (stampMs : Nat) : StreamSignal :=
  { signal with
    queueDropped := signal.queueDropped + 1
    lastQueueDropWallMs := stampMs }

/-- The signal of the stream after an offer. -/
def offered (signal : StreamSignal) (event : ProbeEvent) (outcome : Outcome) (stampMs : Nat) :
    StreamSignal :=
  match outcome with
  | .full => (signal.heard event).dropped stampMs
  | .sent => signal.heard event
  | .closed => signal.heard event

/-- `ProbeSender::connected`. -/
def connected (signal : StreamSignal) (nowMs : Nat) : StreamSignal :=
  { signal with
    lastMessageWallMs := 0
    connectedAtWallMs := nowMs
    connectionGeneration := signal.connectionGeneration + 1
    connectionUp := true }

/-- A `ConnectionGuard` is dropped. -/
def disconnected (signal : StreamSignal) : StreamSignal :=
  { signal with connectionUp := false, lastMessageWallMs := 0 }

end StreamSignal

/-- A dropped market event is stamped with its own receipt, a dropped control event with the
time of the drop. -/
def ProbeEvent.dropStampMs (event : ProbeEvent) (nowMs : Nat) : Nat :=
  match event with
  | .market event => event.receivedWallMs
  | _ => nowMs

/-- `ProbeSender::send`; it returns false exactly when the outcome is `closed`. -/
def SignalTable.send (table : SignalTable) (channel : Channel ProbeEvent) (event : ProbeEvent)
    (nowMs : Nat) : Option (SignalTable × Channel ProbeEvent × Outcome) :=
  (table.stream event.stream).map fun signal =>
    let offer := channel.trySend event
    (table.store event.stream (signal.offered event offer.2 (event.dropStampMs nowMs)),
      offer.1, offer.2)

/-- The spec of a send: the channel decides the outcome and one signal moves. -/
theorem SignalTable.send_eq_some {table after : SignalTable} {channel next : Channel ProbeEvent}
    {event : ProbeEvent} {nowMs : Nat} {outcome : Outcome}
    (sent : table.send channel event nowMs = some (after, next, outcome)) :
    event.stream.2 ∈ table.coins ∧ channel.trySend event = (next, outcome) ∧
      after = table.store event.stream
        ((table.streams event.stream).offered event outcome (event.dropStampMs nowMs)) := by
  obtain ⟨signal, found, sent⟩ := Option.map_eq_some_iff.mp sent
  obtain ⟨registered, rfl⟩ := SignalTable.stream_eq_some found
  cases sent
  exact ⟨registered, rfl, rfl⟩

end MarketBenchmark
