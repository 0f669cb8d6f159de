import MarketBenchmark.Tap.Reassembler
import MarketBenchmark.Foundation.Transducers

/-!
# Frames of a tapped flow

Every tapped connection has a buffer that holds the undelivered rest of its
stream.  After a reset the buffer restarts empty and the reader looks for a
frame boundary again.  The decompressor of data frames is a library of its own,
so it is a parameter here.
-/

namespace MarketBenchmark.Tap

open Foundation.Transducers

/-! ## Limits -/

def maxFrameBody : Nat := 8 * 1024 * 1024
def maxPayload : Nat := 16 * 1024 * 1024

/-- The frames needed in a row before an offset is trusted as a boundary. -/
def resyncFrames : Nat := 4

/-! ## Frames -/

/-- `u32::from_be_bytes` of the first four bytes. -/
def bigEndian (bytes : List UInt8) : Nat :=
  (bytes.take 4).foldl (fun value byte => 256 * value + byte.toNat) 0

/-- `u32::from_le_bytes` of the first four bytes. -/
def littleEndian (bytes : List UInt8) : Nat :=
  (bytes.take 4).foldr (fun byte value => byte.toNat + 256 * value) 0

/-- The bytes of one frame: its length, its kind and its body. -/
structure Frame where
  bytes : List UInt8
  deriving DecidableEq, Repr

variable (decompress : List UInt8 → Nat → Option (List UInt8))

/-- `decompress_data_frame`: the size of the payload, then an LZ4 block. -/
def decompressDataFrame (body : List UInt8) : Option (List UInt8) :=
  if body.length < 5 then none
  else
    let size := littleEndian body
    if size = 0 ∨ maxPayload < size then none else decompress (body.drop 4) size

/-- The given number of well-formed frames starts here, one of them a data frame. -/
def framesStart : Nat → List UInt8 → Bool → Bool
  | 0, _, decoded => decoded
  | count + 1, rest, decoded =>
      if rest.length < 5 then false
      else
        let bodyLen := bigEndian rest
        let kind := rest.getD 4 0
        if bodyLen = 0 ∨ maxFrameBody < bodyLen ∨ 1 < kind then false
        else
          let total := 5 + bodyLen
          if rest.length < total then false
          else if kind = 1 then
            if (decompressDataFrame decompress ((rest.take total).drop 5)).isNone then false
            else framesStart count (rest.drop total) true
          else framesStart count (rest.drop total) decoded

def findFrameBoundary (buf : List UInt8) : Option Nat :=
  (List.range (buf.length - 5)).find? fun start =>
    framesStart decompress resyncFrames (buf.drop start) false

/--
`consume_frames`: the frames it reads, and what is left of the buffer unless a
frame is oversize.
-/
def consumeFrames (buf : List UInt8) : List Frame × Option (List UInt8) :=
  if buf.length < 5 then ([], some buf)
  else if maxFrameBody < bigEndian buf then ([], none)
  else if buf.length < 5 + bigEndian buf then ([], some buf)
  else
    let consumed := consumeFrames (buf.drop (5 + bigEndian buf))
    ({ bytes := buf.take (5 + bigEndian buf) } :: consumed.1, consumed.2)
  termination_by buf.length
  decreasing_by
    rw [List.length_drop]
    omega

/-! ## Flows -/

structure TapFlow where
  reassembler : Reassembler
  buf : List UInt8
  synced : Bool

namespace TapFlow

/-- `TapFlow::default`. -/
def default : TapFlow where
  reassembler := .default
  buf := []
  synced := false

/-- Drop a partial frame and look for a boundary again. -/
def resynchronise (flow : TapFlow) : TapFlow := { flow with buf := [], synced := false }

/-- Read the frames of a buffer that starts at a boundary. -/
def consume (flow : TapFlow) (buf : List UInt8) : TapFlow × List Frame :=
  match consumeFrames buf with
  | (frames, some rest) => ({ flow with buf := rest, synced := true }, frames)
  | (frames, none) => (flow.resynchronise, frames)

/-- `run_peering_tap_once` on one delivery of the flow's reassembler. -/
def deliver (flow : TapFlow) : Delivery → TapFlow × List Frame
  | .reset _ => (flow.resynchronise, [])
  | .bytes data _ =>
      let buf := flow.buf ++ data
      if flow.synced then flow.consume buf
      else
        match findFrameBoundary decompress buf with
        | some offset => flow.consume (buf.drop offset)
        | none =>
            -- only the tail is kept: a boundary lies within one largest frame
            let keep := (maxFrameBody + 5) * 2
            ({ flow with buf := if keep < buf.length then buf.drop (buf.length - keep) else buf },
              [])

/-- A segment or a maintenance tick, with the deliveries that it causes. -/
def call (flow : TapFlow) (tapCall : TapCall) : TapFlow × List Frame :=
  let answered := flow.reassembler.call tapCall
  feed (deliver decompress) { flow with reassembler := answered.1 } answered.2

end TapFlow

end MarketBenchmark.Tap
