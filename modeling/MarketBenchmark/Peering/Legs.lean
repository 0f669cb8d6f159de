import MarketBenchmark.Tap.Dials
import MarketBenchmark.Peering.Decoded
import MarketBenchmark.Peering.Deadlines

/-!
# Sessions of the peering legs

A dialed leg reads its own subscription, a tapped one the segments that the
capture hands it, the decoded one whole lines.  Each of them reads the lines of
the reference feed, too, and drains the ready rounds after whatever woke it up.
The entries say what was tracked, and with which clocks; they are auxiliary.
-/

namespace MarketBenchmark

open Foundation.HashMaps
open Foundation.Panics

/-- The libraries that the legs call: the decompressor, and the parsers of times and lines. -/
structure LegLibraries where
  decompress : Slice → Nat → Option Slice
  parseReferenceTimeMs : String → Option Nat
  decodedLine : List UInt8 → Option DecodedLine

/-- The clocks that a tapped leg reads for a delivery. -/
structure DeliveryClock where
  lastBytes : Nat
  nowMs : Nat
  instant : Nat
  tracked : Nat → Nat

/-- What the loop of a leg wakes up for. -/
inductive LegInput where
  | read (chunk : Slice) (arrival wallMs : Nat) (now : Nat → Nat)
  | segment (seg : Tap.Segment) (now seen : Nat) (clock : Nat → DeliveryClock)
  | line (bytes : List UInt8) (arrival wallMs : Nat)
  | reference (line : ReferenceLine) (now : Nat)
  | health
  | maintenance (order : IterationOrder) (now : Nat) (clock : Nat → DeliveryClock)

inductive LegEntry where
  | payload (payload : Slice) (arrival wallMs : Nat)
  | line (line : DecodedLine) (arrival wallMs : Nat)
  | reference (line : ReferenceLine) (now : Nat)

/-! ## Tapped legs -/

structure TapLeg where
  flows : HashMap Nat Tap.TapFlow
  assembly : Assembly
  lastBytes : Nat

/-- The payloads of the whole frames in a buffer. -/
def consumedEntries (decompress : Slice → Nat → Option Slice) (buf : Slice)
    (arrival wallMs : Nat) : List LegEntry :=
  (Peering.handed decompress (Peering.framing.drain 0 buf.bytes).frames).map fun entry =>
    .payload entry.2 arrival wallMs

/-- The kernel's receive time on the monotonic clock. -/
def DeliveryClock.arrival (clock : DeliveryClock) (wallMs : Nat) : Nat :=
  let behind := fromMillis (clock.nowMs - wallMs)
  if behind ≤ clock.instant then clock.instant - behind else clock.instant

namespace TapLeg

variable (decompress : Slice → Nat → Option Slice)

/-- `consume_frames` on the buffer of a flow, which is out of step after an error. -/
def consume (leg : TapLeg) (port : Nat) (flow : Tap.TapFlow) (bytes : List UInt8) (wallMs : Nat)
    (clock : DeliveryClock) : Option (TapLeg × List LegEntry) :=
  if short : bytes.length ≤ isizeMax then
    let buf : Slice := { bytes := bytes, short := short }
    let arrival := clock.arrival wallMs
    (Peering.consumeFrames decompress buf leg.assembly arrival wallMs
        clock.tracked).toOption.map fun consumed =>
      let after :=
        match consumed.2.2 with
        | some _ => flow.resynchronise
        | none => { flow with buf := consumed.1.bytes, synced := true }
      ({ flows := leg.flows.insert port after
         assembly := consumed.2.1
         lastBytes := clock.lastBytes }, consumedEntries decompress buf arrival wallMs)
  else none

/-- One delivery of the flow on a port. -/
def deliver (leg : TapLeg) (port : Nat) (clock : DeliveryClock) :
    Tap.Delivery → Option (TapLeg × List LegEntry)
  | .reset _ =>
      (leg.flows.lookup port).map fun flow =>
        ({ leg with flows := leg.flows.insert port flow.resynchronise }, [])
  | .bytes data wallNs =>
      (leg.flows.lookup port).bind fun flow =>
        let buf := flow.buf ++ data
        let wallMs := wallNs / 1000000
        if flow.synced then leg.consume decompress port flow buf wallMs clock
        else
          match Tap.findFrameBoundary (Tap.onBytes decompress) buf with
          | some offset => leg.consume decompress port flow (buf.drop offset) wallMs clock
          | none =>
              -- only the tail is kept: a boundary lies within one largest frame
              let keep := (Tap.maxFrameBody + 5) * 2
              let kept := if keep < buf.length then buf.drop (buf.length - keep) else buf
              some
                ({ leg with
                    flows := leg.flows.insert port { flow with buf := kept }
                    lastBytes := clock.lastBytes }, [])

/-- The deliveries of a turn; the first number counts them. -/
def deliverAll (clock : Nat → DeliveryClock) :
    Nat → List (Nat × Tap.Delivery) → TapLeg → Option (TapLeg × List LegEntry)
  | _, [], leg => some (leg, [])
  | count, (port, delivery) :: rest, leg =>
      (leg.deliver decompress port (clock count) delivery).bind fun delivered =>
        (deliverAll clock (count + 1) rest delivered.1).map fun further =>
          (further.1, delivered.2 ++ further.2)

/-- A segment goes to the flow of its port, or a new one. -/
def segment (leg : TapLeg) (seg : Tap.Segment) (now seen : Nat) (clock : Nat → DeliveryClock) :
    Option (TapLeg × List LegEntry) :=
  let flow := (leg.flows.lookup seg.dstPort).getD .default
  let pushed := flow.reassembler.push seg now seen
  deliverAll decompress clock 0 (pushed.2.map fun delivery => (seg.dstPort, delivery))
    { leg with flows := leg.flows.insert seg.dstPort { flow with reassembler := pushed.1 } }

/-- The ticks of all flows. -/
def ticks (leg : TapLeg) (order : IterationOrder) (now : Nat) : List (Nat × Tap.Delivery) :=
  (order.arrange leg.flows.entries).flatMap fun entry =>
    (entry.2.reassembler.tick now).2.map fun delivery => (entry.1, delivery)

/-- The maintenance tick, when bytes came in time. -/
def maintain (leg : TapLeg) (order : IterationOrder) (now : Nat) (clock : Nat → DeliveryClock) :
    Option (TapLeg × List LegEntry) :=
  deliverAll decompress clock 0 (leg.ticks order now)
    { leg with
      flows := leg.flows.mapValues fun _ flow =>
        { flow with reassembler := (flow.reassembler.tick now).1 } }

end TapLeg

/-! ## Legs -/

inductive Leg where
  | dial (buf : Slice) (assembly : Assembly)
  | tap (leg : TapLeg)
  | decoded (assembly : DecodedAssembly)

/-- What a leg makes of its input: the session fails, or it goes on. -/
inductive LegStep where
  | fails
  | goesOn (leg : Leg) (entries : List LegEntry)

namespace Leg

/-- The input is handled; undefined where the loop does not wake up for it or the code panics. -/
def handle (libraries : LegLibraries) : Leg → LegInput → Option LegStep
  | .dial buf assembly, .read chunk arrival wallMs now =>
      (buf.extend chunk).toOption.bind fun buf =>
        (Peering.consumeFrames libraries.decompress buf assembly arrival wallMs
            now).toOption.map fun consumed =>
          match consumed.2.2 with
          | some _ => .fails
          | none => .goesOn (.dial consumed.1 consumed.2.1)
              (consumedEntries libraries.decompress buf arrival wallMs)
  | .dial buf assembly, .reference line now =>
      some (.goesOn (.dial buf (assembly.trackReference libraries.parseReferenceTimeMs line now))
        [.reference line now])
  | .dial buf assembly, .maintenance _ _ _ => some (.goesOn (.dial buf assembly) [])
  | .tap leg, .segment seg now seen clock =>
      (leg.segment libraries.decompress seg now seen clock).map fun handled =>
        .goesOn (.tap handled.1) handled.2
  | .tap leg, .reference line now =>
      some (.goesOn (.tap { leg with
        assembly := leg.assembly.trackReference libraries.parseReferenceTimeMs line now })
        [.reference line now])
  | .tap leg, .health => some (.goesOn (.tap leg) [])
  | .tap leg, .maintenance order now clock =>
      if readDeadline < now - leg.lastBytes then some .fails
      else
        (leg.maintain libraries.decompress order now clock).map fun handled =>
          .goesOn (.tap handled.1) handled.2
  | .decoded assembly, .line bytes arrival wallMs =>
      match libraries.decodedLine bytes with
      | none => some (.goesOn (.decoded assembly) [])
      | some line => some (.goesOn (.decoded (assembly.trackLine line arrival wallMs))
          [.line line arrival wallMs])
  | .decoded assembly, .reference line now =>
      some (.goesOn (.decoded (assembly.trackReference libraries.parseReferenceTimeMs line now))
        [.reference line now])
  | .decoded assembly, .maintenance _ _ _ => some (.goesOn (.decoded assembly) [])
  | _, _ => none

/-- `drain_ready` of the leg's assembly. -/
def drainReady (order : IterationOrder) (now : Nat) : Leg → Leg × List MarketEvent × Nat
  | .dial buf assembly =>
      let drained := assembly.drainReady order now
      (.dial buf drained.1, drained.2)
  | .tap leg =>
      let drained := leg.assembly.drainReady order now
      (.tap { leg with assembly := drained.1 }, drained.2)
  | .decoded assembly =>
      let drained := assembly.drainReady order now
      (.decoded drained.1, drained.2)

/-- The stream that the leg reports its gaps for. -/
def stream : Leg → Provider × String
  | .dial _ assembly => (assembly.provider, assembly.coin)
  | .tap leg => (leg.assembly.provider, leg.assembly.coin)
  | .decoded assembly => (.quickNodeVpc, assembly.coin)

/-- The ready events, then the gaps if there are any. -/
def events (leg : Leg) (drained : List MarketEvent × Nat) : List ProbeEvent :=
  drained.1.map .market ++
    if 0 < drained.2 then [.sequenceGap leg.stream.1 leg.stream.2 drained.2] else []

end Leg

end MarketBenchmark
