import MarketBenchmark.Feeds.FillsTail
import MarketBenchmark.Foundation.Relays
import MarketBenchmark.Foundation.Utf8
import MarketBenchmark.Peering.FeedLines

/-!
# Subscribers of the reference feed

The feed reads the lines of a node and sends what it prints of them to all of
its clients at once, under the lock under which a client is accepted.  A client
whose socket fails is dropped, maybe in the middle of a line.  On the other side
a task of the collector cuts what arrives into lines and queues those that it
can parse for a leg.
-/

namespace MarketBenchmark.ReferenceFeed

open Feeds
open Foundation.Relays

/-- The libraries on both sides of the connection: `json.loads` and `json.dumps` with the feed's
separators, and `serde_json::from_str`. -/
structure FeedLibraries where
  loads : List UInt8 → Option Json
  dumps : FeedRow → List UInt8
  fromStr : List UInt8 → Option ReferenceLine

namespace FeedLibraries

variable (libraries : FeedLibraries)

/-- What the libraries guarantee for a row: it is printed in visible ASCII, its fields are read
back, and a part of its text is no JSON. -/
structure ReadsBack (row : FeedRow) : Prop where
  ascii : ∀ byte ∈ libraries.dumps row, 32 ≤ byte.toNat ∧ byte.toNat < 128
  whole : libraries.fromStr (libraries.dumps row) = row.decode
  torn : ∀ part, part <+: libraries.dumps row → part ≠ libraries.dumps row →
    libraries.fromStr part = none

/-- The guarantees for every row that `compact` can make. -/
def Documented : Prop :=
  ∀ raw row, compact libraries.loads raw = .ok row → libraries.ReadsBack row

end FeedLibraries

/-! ## The collector's end -/

/-- The capacity of the channel from the reader to its leg. -/
def referenceQueue : Nat := 4096

/--
A connection to the feed: the client's socket while it is served, what was sent
and did not arrive yet, and the reader with its queue.  `since` counts the lines
that the feed had read when it accepted the connection; it is auxiliary.
-/
structure Subscription where
  since : Nat
  served : Bool
  inFlight : List UInt8
  text : List UInt8
  reading : Bool
  queue : List ReferenceLine
  heard : List ReferenceLine

inductive ReaderAction where
  | arrive (count : Nat)
  | next
  | finish
  | hear
  | lose

/-- `lines()` takes a carriage return off, too. -/
def dropReturn (line : List UInt8) : List UInt8 :=
  if line.getLast? = some 13 then line.dropLast else line

namespace Subscription

variable (fromStr : List UInt8 → Option ReferenceLine)

/-- A line that can be parsed waits for room in the queue, any other one is skipped. -/
def hand (subscription : Subscription) (line : List UInt8) : Option Subscription :=
  match fromStr line with
  | none => some subscription
  | some parsed =>
      if subscription.queue.length < referenceQueue then
        some { subscription with queue := subscription.queue ++ [parsed] }
      else none

def step (subscription : Subscription) : ReaderAction → Option Subscription
  | .arrive count =>
      if subscription.reading ∧ 0 < count ∧ count ≤ subscription.inFlight.length then
        some { subscription with
          text := subscription.text ++ subscription.inFlight.take count
          inFlight := subscription.inFlight.drop count }
      else none
  | .next =>
      if subscription.reading then
        match cutFirst newlineByte subscription.text with
        | none => none
        | some (line, rest) =>
            if isUtf8 line then
              hand fromStr { subscription with text := rest } (dropReturn line)
            else some { subscription with reading := false }
      else none
  | .finish =>
      -- at the end of the stream an unfinished line counts as one
      if subscription.reading ∧ ¬subscription.served ∧ subscription.inFlight = [] ∧
          newlineByte ∉ subscription.text then
        if subscription.text = [] ∨ ¬isUtf8 subscription.text then
          some { subscription with reading := false }
        else hand fromStr { subscription with text := [], reading := false } subscription.text
      else none
  | .hear =>
      match subscription.queue with
      | [] => none
      | line :: rest =>
          some { subscription with queue := rest, heard := subscription.heard ++ [line] }
  -- the connection breaks, or the task is aborted
  | .lose => some { subscription with reading := false, inFlight := [] }

/-- `sendall` to a client; when it fails, a part of the line may be out. -/
def send (line : List UInt8) (failed : Option Nat) (subscription : Subscription) : Subscription :=
  if subscription.served then
    match failed with
    | none => { subscription with inFlight := subscription.inFlight ++ line }
    | some count =>
        { subscription with
          inFlight := subscription.inFlight ++ line.take count
          served := false }
  else subscription

def unserve (subscription : Subscription) : Subscription := { subscription with served := false }

/-- A connection at the time when it is accepted. -/
def accepted (since : Nat) (served : Bool) : Subscription where
  since := since
  served := served
  inFlight := []
  text := []
  reading := true
  queue := []
  heard := []

end Subscription

/-! ## The feed -/

/-- The tail's buffer, whether the process has ended, and all connections so far; `lines` has the
lines that were read and is auxiliary. -/
structure FeedServer where
  buffer : List UInt8
  stopped : Bool
  subscriptions : List Subscription
  lines : List (List UInt8)

inductive FeedAction where
  | read (chunk : List UInt8)
  | line (failing : Nat → Option Nat)
  | rotate
  | accept
  | stop
  | reader (index : Nat) (action : ReaderAction)

namespace FeedServer

/-- The tail has opened its first file at the end. -/
def start : FeedServer where
  buffer := []
  stopped := false
  subscriptions := []
  lines := []

/-- `len(clients)` -/
def clients (feed : FeedServer) : Nat := feed.subscriptions.countP Subscription.served

/-- The process ends, and with it all of its sockets. -/
def stop (feed : FeedServer) : FeedServer :=
  { feed with stopped := true, subscriptions := feed.subscriptions.map Subscription.unserve }

def broadcast (feed : FeedServer) (line : List UInt8) (failing : Nat → Option Nat) : FeedServer :=
  { feed with
    subscriptions := feed.subscriptions.mapIdx fun index => Subscription.send line (failing index) }

variable (libraries : FeedLibraries) (maxClients : Nat)

/-- The feed is done with a line. -/
def finishLine (feed : FeedServer) (raw : List UInt8) (failing : Nat → Option Nat) : FeedServer :=
  match compact libraries.loads raw with
  | .ok row => feed.broadcast (libraries.dumps row ++ [newlineByte]) failing
  | .error .caught => feed
  | .error .uncaught => feed.stop

def step (feed : FeedServer) : FeedAction → Option FeedServer
  | .read chunk =>
      if ¬feed.stopped ∧ newlineByte ∉ feed.buffer ∧ chunk ≠ [] then
        some { feed with buffer := feed.buffer ++ chunk }
      else none
  | .line failing =>
      if feed.stopped then none
      else
        (cutFirst newlineByte feed.buffer).map fun cut =>
          finishLine libraries
            { feed with buffer := cut.2, lines := feed.lines ++ [cut.1] } cut.1 failing
  -- after an empty read there is a newer file
  | .rotate =>
      if ¬feed.stopped ∧ newlineByte ∉ feed.buffer then some { feed with buffer := [] } else none
  | .accept =>
      if feed.stopped then none
      else
        some { feed with
          subscriptions := feed.subscriptions ++
            [.accepted feed.lines.length (decide (feed.clients < maxClients))] }
  | .stop => some feed.stop
  | .reader index action =>
      feed.subscriptions[index]?.bind fun subscription =>
        (subscription.step libraries.fromStr action).map fun next =>
          { feed with subscriptions := feed.subscriptions.set index next }

end FeedServer

end MarketBenchmark.ReferenceFeed
