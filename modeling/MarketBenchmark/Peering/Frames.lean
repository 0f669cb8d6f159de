import MarketBenchmark.Ordering.Blocks

/-!
# Frames of a peering stream

The peering stream is a run of frames `[body_len u32 BE][kind][body]`.  The
loop that drains whole frames from the buffer, the two payloads it tracks, and
the readers of a bundle payload are checked as the ordering parser is.
-/

namespace MarketBenchmark.Peering

open Foundation
open Foundation.Panics
open Foundation.Endian

/-- `MAX_FRAME_BODY` -/
def maxFrameBody : Nat := 8 * 1024 * 1024

/-- `MAX_PAYLOAD` -/
def maxPayload : Nat := 16 * 1024 * 1024

/-- The size of the chunk that one read fills. -/
def readChunk : Nat := 256 * 1024

/-! ## Bundle payloads -/

/-- `read_bincode_varint` -/
def readBincodeVarint (data : Slice) (i : Nat) : Fallible (Nat × Nat) := do
  let tag ← data.get i
  if tag ≤ 0xfa then pure (tag.toNat, ← addUsize i 1)
  else if tag = 0xfb then
    let bytes ← data.getAll i [1, 2]
    pure (fromLe bytes, ← addUsize i 3)
  else if tag = 0xfc then
    let bytes ← data.getAll i [1, 2, 3, 4]
    pure (fromLe bytes, ← addUsize i 5)
  else if tag = 0xfd then
    let bytes ← data.getAll i [1, 2, 3, 4, 5, 6, 7, 8]
    pure (fromLe bytes, ← addUsize i 9)
  else failure

/-- `read_msgpack_uint` -/
def readMsgpackUint (data : Slice) (i : Nat) : Fallible (Nat × Nat) := do
  let tag ← data.get i
  if tag ≤ 0x7f then pure (tag.toNat, ← addUsize i 1)
  else if tag = 0xcc then
    let bytes ← data.getAll i [1]
    pure (fromBe bytes, ← addUsize i 2)
  else if tag = 0xcd then
    let bytes ← data.getAll i [1, 2]
    pure (fromBe bytes, ← addUsize i 3)
  else if tag = 0xce then
    let bytes ← data.getAll i [1, 2, 3, 4]
    pure (fromBe bytes, ← addUsize i 5)
  else if tag = 0xcf then
    let bytes ← data.getAll i [1, 2, 3, 4, 5, 6, 7, 8]
    pure (fromBe bytes, ← addUsize i 9)
  else failure

/-- The count of a length index, and the index of its first length. -/
def indexCount (payload : Slice) (anchor : Nat) : Fallible (Nat × Nat) := do
  let tag ← payload.get anchor
  if 0x90 ≤ tag ∧ tag ≤ 0x9f then pure ((tag &&& 0x0f).toNat, ← addUsize anchor 1)
  else if tag = 0xdc then
    let bytes ← payload.getAll anchor [1, 2]
    pure (fromBe bytes, ← addUsize anchor 3)
  else if tag = 0xdd then
    let bytes ← payload.getAll anchor [1, 2, 3, 4]
    pure (fromBe bytes, ← addUsize anchor 5)
  else failure

/-- The sum of so many record lengths, and the index past them. -/
def sumLengths (payload : Slice) : Nat → Nat → Nat → Fallible (Nat × Nat)
  | 0, pos, sum => pure (sum, pos)
  | count + 1, pos, sum => do
      let (len, next) ← readMsgpackUint payload pos
      if ¬(1 ≤ len ∧ len ≤ 200000) then failure
      else
        let sum ← checkedAdd sum len
        sumLengths payload count next sum

/-- `validate_length_index` -/
def validateLengthIndex (payload : Slice) (anchor : Nat) : Fallible Nat := do
  let (count, pos) ← indexCount payload anchor
  if ¬(1 ≤ count ∧ count ≤ 100000) then failure
  else
    let (sum, pos) ← sumLengths payload count pos 0
    let total ← checkedAdd pos sum
    if payload.length < total then failure
    else
      let trailer ← subUsize payload.length total
      if 256 < trailer then failure else pure pos

/-- The signature behind the first of the anchors that validates. -/
def firstSigFrom (payload : Slice) : List Nat → Fallible Hash32
  | [] => failure
  | anchor :: rest => do
      match ← liftM (validateLengthIndex payload anchor).run with
      | none => firstSigFrom payload rest
      | some recordStart =>
          let sig ← payload.getRange recordStart (← addUsize recordStart 32)
          copyArray 32 sig

/-- `bundle_first_sig` -/
def bundleFirstSig (payload : Slice) : Fallible Hash32 := do
  let (_, bodyStart) ← readBincodeVarint payload 1
  let hi := min (← addUsize bodyStart 16) payload.length
  firstSigFrom payload (List.range' bodyStart (hi - bodyStart))

/-! ## Payloads -/

/-- `track_payload`; `now` is the clock that `track_bundle` reads. -/
def trackPayload (payload : Slice) (assembly : Assembly) (arrival wallMs now : Nat) :
    Checked Assembly :=
  if payload.bytes.head? = some 0x00 then do
    let rounds ← orderingRounds payload assembly.maxRefRound roundWindow
    pure (rounds.foldl
      (fun assembly round => assembly.trackOrdering round.1 arrival wallMs) assembly)
  else if payload.bytes.head? = some 0x01 then do
    match ← (bundleFirstSig payload).run with
    | some sig => pure (assembly.trackBundle sig arrival wallMs now)
    | none => pure assembly
  else pure assembly

/-- `decompress_data_frame`; the parameter decompresses one block to at most a size. -/
def decompressDataFrame (decompress : Slice → Nat → Option Slice) (body : Slice) :
    Fallible Slice :=
  if body.length < 5 then failure
  else do
    let first ← body.byteAt 0
    let second ← body.byteAt 1
    let third ← body.byteAt 2
    let fourth ← body.byteAt 3
    let size := fromLe [first, second, third, fourth]
    if size = 0 ∨ maxPayload < size then failure
    else
      let block ← body.range 4 body.length
      OptionT.mk (pure (decompress block size))

/-- What a frame of the kind does to the assembly. -/
def trackFrame (decompress : Slice → Nat → Option Slice) (kind : UInt8) (body : Slice)
    (assembly : Assembly) (arrival wallMs now : Nat) : Checked Assembly := do
  if kind = 0x01 then
    match ← (decompressDataFrame decompress body).run with
    | some payload => trackPayload payload assembly arrival wallMs now
    | none => pure assembly
  -- small bundles travel uncompressed
  else if kind = 0x00 ∧ body.bytes.head? = some 0x01 then
    trackPayload body assembly arrival wallMs now
  else pure assembly

/-! ## Frames -/

/-- Where the loop over frames stopped, and why when a frame was too large. -/
structure Drained where
  offset : Nat
  assembly : Assembly
  desync : Option String

/-- The loop of `consume_frames`; the first number bounds its rounds, and `now` is the
clock while the frame at an offset is tracked. -/
def drainFrames (decompress : Slice → Nat → Option Slice) (buf : Slice) (arrival wallMs : Nat)
    (now : Nat → Nat) : Nat → Nat → Assembly → Checked Drained
  | 0, _, _ => throw .divergence
  | fuel + 1, offset, assembly => do
      let left ← subUsize buf.length offset
      if left < 5 then pure { offset := offset, assembly := assembly, desync := none }
      else
        let first ← buf.byteAt offset
        let second ← buf.byteAt (← addUsize offset 1)
        let third ← buf.byteAt (← addUsize offset 2)
        let fourth ← buf.byteAt (← addUsize offset 3)
        let bodyLen := fromBe [first, second, third, fourth]
        if maxFrameBody < bodyLen then
          pure
            { offset := offset
              assembly := assembly
              desync := some s!"peering frame oversize ({bodyLen} bytes): stream desync" }
        else
          let total ← addUsize 5 bodyLen
          if left < total then pure { offset := offset, assembly := assembly, desync := none }
          else
            let kind ← buf.byteAt (← addUsize offset 4)
            let body ← buf.range (← addUsize offset 5) (← addUsize offset total)
            let assembly ← trackFrame decompress kind body assembly arrival wallMs (now offset)
            drainFrames decompress buf arrival wallMs now fuel (← addUsize offset total) assembly

/-- `consume_frames`: what stays in the buffer, and the error if the stream is out of step. -/
def consumeFrames (decompress : Slice → Nat → Option Slice) (buf : Slice) (assembly : Assembly)
    (arrival wallMs : Nat) (now : Nat → Nat) : Checked (Slice × Assembly × Option String) := do
  let drained ← drainFrames decompress buf arrival wallMs now (buf.length + 1) 0 assembly
  match drained.desync with
  | some error => pure (buf, drained.assembly, some error)
  | none => pure (← buf.range drained.offset buf.length, drained.assembly, none)

/-- One read of `run_peering`: its chunk, what the loop did to the assembly since the last
read, and the clocks. -/
structure Read where
  chunk : Slice
  fits : chunk.length ≤ readChunk
  since : Assembly → Assembly
  arrival : Nat
  wallMs : Nat
  now : Nat → Nat

/-- The reads of `run_peering` one after the other, up to an error. -/
def readAll (decompress : Slice → Nat → Option Slice) :
    List Read → Slice → Assembly → Checked (Slice × Assembly × Option String)
  | [], buf, assembly => pure (buf, assembly, none)
  | read :: rest, buf, assembly => do
      let buf ← buf.extend read.chunk
      let (buf, assembly, desync) ←
        consumeFrames decompress buf (read.since assembly) read.arrival read.wallMs read.now
      match desync with
      | some error => pure (buf, assembly, some error)
      | none => readAll decompress rest buf assembly

end MarketBenchmark.Peering
