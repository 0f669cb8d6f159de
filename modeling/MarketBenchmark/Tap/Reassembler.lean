import MarketBenchmark.Model
import MarketBenchmark.Foundation.OrderedMaps
import MarketBenchmark.Foundation.Serial

/-!
# Reassembly of a tapped connection

The tap copies the segments that the kernel delivered to a node and rebuilds
the byte stream of the connection.  Segments ahead of the next expected byte
wait until the bytes before them arrive; a hole that stays open is a reset.
-/

namespace MarketBenchmark.Tap

open Foundation

/-! ## Limits -/

/-- A hole in the sequence space older than this is treated as lost. -/
def reorderWait : Nat := fromMillis 250

/-- The bound on the out-of-order bytes held per flow. -/
def maxPendingBytes : Nat := 16 * 1024 * 1024

/-- The buffer into which the capture thread reads one packet. -/
def captureBytes : Nat := 256 * 1024

def tcpFin : BitVec 8 := 0x01
def tcpSyn : BitVec 8 := 0x02
def tcpRst : BitVec 8 := 0x04

/-! ## Data -/

/-- One TCP segment from the tapped peer, as captured. -/
structure Segment where
  dstPort : Nat
  seq : BitVec 32
  flags : BitVec 8
  payload : List UInt8
  wallNs : Nat
  deriving DecidableEq, Repr

namespace Segment

def IsSyn (seg : Segment) : Prop := seg.flags &&& tcpSyn ≠ 0
def IsRst (seg : Segment) : Prop := seg.flags &&& tcpRst ≠ 0
def IsFin (seg : Segment) : Prop := seg.flags &&& tcpFin ≠ 0

instance (seg : Segment) : Decidable seg.IsSyn := inferInstanceAs (Decidable (_ ≠ _))
instance (seg : Segment) : Decidable seg.IsRst := inferInstanceAs (Decidable (_ ≠ _))
instance (seg : Segment) : Decidable seg.IsFin := inferInstanceAs (Decidable (_ ≠ _))

end Segment

/-- What the reassembler hands on for one segment. -/
inductive Delivery where
  | bytes (data : List UInt8) (wallNs : Nat)
  | reset (reason : String)
  deriving DecidableEq, Repr

/-- A payload that waits for the hole before it, and when it was first seen. -/
structure Held where
  payload : List UInt8
  wallNs : Nat
  firstSeen : Nat

abbrev Pending : Type := OrderedMap (BitVec 32) Held

/-- The bytes that the pending payloads hold. -/
def heldBytes (pending : Pending) : Nat :=
  OrderedMap.total (fun held => held.payload.length) pending

structure Reassembler where
  next : Option (BitVec 32)
  pending : Pending
  pendingBytes : Nat

/-- `seq_diff`: the signed distance from `b` to `a` in 32-bit sequence space. -/
def seqDiff (a b : BitVec 32) : Int := Serial.distance a b

/-- `as usize` of a signed 32-bit number. -/
def asUsize (value : Int) : Nat := (value % 2 ^ 64).toNat

theorem asUsize_natCast {value : Nat} (fits : value < 2 ^ 64) : asUsize (value : Int) = value := by
  unfold asUsize
  omega

/-! ## Pulling pending segments -/

/-- The variables of `take` while it pulls pending segments. -/
structure Pull where
  next : BitVec 32
  data : List UInt8
  lastWall : Nat
  pending : Pending
  pendingBytes : Nat

namespace Pull

/-- One turn of the loop, for the pending segment that it found. -/
def absorb (pull : Pull) (seq : BitVec 32) (held : Held) : Pull :=
  let overlap := asUsize (seqDiff pull.next seq)
  let kept : Pull :=
    { pull with
      pending := pull.pending.erase seq
      pendingBytes := pull.pendingBytes - held.payload.length }
  if held.payload.length ≤ overlap then kept
  else
    let rest := held.payload.drop overlap
    { kept with
      next := pull.next + BitVec.ofNat 32 rest.length
      data := pull.data ++ rest
      lastWall := max pull.lastWall held.wallNs }

/-- The first pending segment, in key order, that starts no later than `next`. -/
def due (pull : Pull) : Option (BitVec 32 × Held) :=
  pull.pending.entries.find? fun entry => seqDiff entry.1 pull.next ≤ 0

/-- The loop; every turn removes a pending segment, so their number is enough fuel. -/
def loop : Nat → Pull → Pull
  | 0, pull => pull
  | fuel + 1, pull =>
      match pull.due with
      | none => pull
      | some (seq, held) => loop fuel (pull.absorb seq held)

end Pull

namespace Reassembler

/-- `Reassembler::default`. -/
def default : Reassembler where
  next := none
  pending := OrderedMap.empty
  pendingBytes := 0

/-- `clear`. -/
def clear (_ : Reassembler) : Reassembler := default

/-- The end of `take`: the payload continues the stream at `next`. -/
def deliver (reassembler : Reassembler) (next : BitVec 32) (payload : List UInt8)
    (wallNs : Nat) : Reassembler × List Delivery :=
  let pulled := Pull.loop reassembler.pending.entries.length
    { next := next + BitVec.ofNat 32 payload.length
      data := payload
      lastWall := wallNs
      pending := reassembler.pending
      pendingBytes := reassembler.pendingBytes }
  ({ next := some pulled.next, pending := pulled.pending, pendingBytes := pulled.pendingBytes },
    [.bytes pulled.data pulled.lastWall])

/-- `take`; `seen` is the instant at which it stores a segment. -/
def take (reassembler : Reassembler) (seq : BitVec 32) (payload : List UInt8)
    (wallNs seen : Nat) : Reassembler × List Delivery :=
  match reassembler.next with
  | none => (reassembler, [])
  | some next =>
      if seqDiff seq next < 0 then
        -- a retransmit or an overlap: only the bytes past `next` are kept
        let skip := (seqDiff seq next).natAbs
        if payload.length ≤ skip then (reassembler, [])
        else reassembler.deliver next (payload.drop skip) wallNs
      else if 0 < seqDiff seq next then
        if maxPendingBytes < reassembler.pendingBytes + payload.length then
          let cleared :=
            { reassembler with pending := OrderedMap.empty, pendingBytes := 0 }
          let (after, out) := cleared.deliver seq payload wallNs
          (after, .reset "reorder buffer full" :: out)
        else
          ({ reassembler with
              pendingBytes := reassembler.pendingBytes + payload.length
              pending := reassembler.pending.orInsert seq
                { payload := payload, wallNs := wallNs, firstSeen := seen } }, [])
      else reassembler.deliver next payload wallNs

/-- The instant at which the oldest pending segment was first seen. -/
def oldest (reassembler : Reassembler) : Option Nat :=
  (reassembler.pending.entries.map fun entry => entry.2.firstSeen).min?

/-- The pending segment that is nearest after `next`. -/
def nearest (reassembler : Reassembler) : Option (BitVec 32 × Held) :=
  reassembler.pending.entries.minOn? fun entry =>
    seqDiff entry.1 (reassembler.next.getD entry.1)

def expire (reassembler : Reassembler) (now : Nat) : Reassembler × List Delivery :=
  match reassembler.oldest with
  | none => (reassembler, [])
  | some oldest =>
      if now - oldest < reorderWait then (reassembler, [])
      else
        match reassembler.nearest with
        -- `expect("non-empty")`
        | none => (reassembler, [])
        | some (first, held) =>
            let jumped : Reassembler :=
              { next := some first
                pending := reassembler.pending.erase first
                pendingBytes := reassembler.pendingBytes - held.payload.length }
            let (after, out) := jumped.take first held.payload held.wallNs now
            (after, .reset "sequence hole not filled (capture loss)" :: out)

/-- A reset for what the reassembler was reading, if it was reading. -/
def resetIfReading (reassembler : Reassembler) (reason : String) : List Delivery :=
  if reassembler.next.isSome then [.reset reason] else []

/-- `push`; `seen` is the instant read inside of it. -/
def push (reassembler : Reassembler) (seg : Segment) (now seen : Nat) :
    Reassembler × List Delivery :=
  if seg.IsSyn then
    let out := reassembler.resetIfReading "new connection (SYN)"
    let started := { reassembler.clear with next := some (seg.seq + 1) }
    if seg.payload = [] then (started, out)
    else
      let (after, taken) := started.take (seg.seq + 1) seg.payload seg.wallNs seen
      (after, out ++ taken)
  else if seg.IsRst then
    (reassembler.clear, reassembler.resetIfReading "connection reset (RST)")
  else if seg.payload = [] then
    if seg.IsFin ∧ reassembler.next.isSome then
      (reassembler.clear, [.reset "connection closed (FIN)"])
    else (reassembler, [])
  else
    -- joined mid-stream: the first byte seen is the next one
    let joined := { reassembler with next := some (reassembler.next.getD seg.seq) }
    let (taken, out) := joined.take seg.seq seg.payload seg.wallNs seen
    let (after, expired) := taken.expire now
    (after, out ++ expired)

/-- `tick`. -/
def tick (reassembler : Reassembler) (now : Nat) : Reassembler × List Delivery :=
  reassembler.expire now

end Reassembler

/-! ## Calls -/

inductive TapCall where
  | push (seg : Segment) (now seen : Nat)
  | tick (now : Nat)

/-- What one call does to the reassembler of a connection, and what it hands on. -/
def Reassembler.call (reassembler : Reassembler) : TapCall → Reassembler × List Delivery
  | .push seg now seen => reassembler.push seg now seen
  | .tick now => reassembler.tick now

end MarketBenchmark.Tap
