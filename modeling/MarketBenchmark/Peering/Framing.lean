import MarketBenchmark.Foundation.Framing
import MarketBenchmark.Peering.WireSafety

/-!
# Framing does not depend on the reads

A peering buffer as a framer sees it.  The loop over frames takes exactly the
frames of that framer and hands on their payloads in order, so cutting the
stream into reads changes neither the payloads nor the error nor what is left.
-/

namespace MarketBenchmark.Peering

open Foundation
open Foundation.Panics
open Foundation.Endian
open Foundation.Streams
open Foundation.Framing

/-! ## Frames -/

structure Frame where
  kind : UInt8
  body : Slice

theorem Frame.ext_bytes {first second : Frame} (kind : first.kind = second.kind)
    (body : first.body.bytes = second.body.bytes) : first = second := by
  have same := Slice.eq_of_bytes body
  cases first
  cases second
  cases kind
  cases same
  rfl

def Frame.size (frame : Frame) : Nat := 5 + frame.body.length

def oversize (bodyLen : Nat) : String :=
  s!"peering frame oversize ({bodyLen} bytes): stream desync"

/-- A header that announces a body of the length, with the bytes behind it. -/
def frameOf (kind : UInt8) (bodyLen : Nat) (rest : List UInt8) : Verdict Frame String :=
  if large : maxFrameBody < bodyLen then .stop (oversize bodyLen)
  else if rest.length < bodyLen then .wait
  else
    .take (5 + bodyLen)
      { kind := kind
        body :=
          { bytes := rest.take bodyLen
            short := Nat.le_trans (List.length_take_le _ _)
              (Nat.le_trans (Nat.le_of_not_lt large) (by decide)) } }

/-- What the first bytes of a buffer hold. -/
def nextFrame : List UInt8 → Verdict Frame String
  | first :: second :: third :: fourth :: kind :: rest =>
      frameOf kind (fromBe [first, second, third, fourth]) rest
  | _ => .wait

/-- The three verdicts on a buffer with a header. -/
theorem nextFrame_cons (first second third fourth kind : UInt8) (rest : List UInt8) :
    (maxFrameBody < fromBe [first, second, third, fourth] ∧
      nextFrame (first :: second :: third :: fourth :: kind :: rest)
        = .stop (oversize (fromBe [first, second, third, fourth]))) ∨
    (¬maxFrameBody < fromBe [first, second, third, fourth] ∧
      rest.length < fromBe [first, second, third, fourth] ∧
      nextFrame (first :: second :: third :: fourth :: kind :: rest) = .wait) ∨
    (¬maxFrameBody < fromBe [first, second, third, fourth] ∧
      fromBe [first, second, third, fourth] ≤ rest.length ∧
      ∃ frame : Frame, frame.kind = kind ∧
        frame.body.bytes = rest.take (fromBe [first, second, third, fourth]) ∧
        nextFrame (first :: second :: third :: fourth :: kind :: rest)
          = .take (5 + fromBe [first, second, third, fourth]) frame) := by
  unfold nextFrame frameOf
  dsimp only
  split
  · next large => exact Or.inl ⟨large, rfl⟩
  split
  · next large short => exact Or.inr (Or.inl ⟨large, short, rfl⟩)
  · next large whole =>
      exact Or.inr (Or.inr ⟨large, Nat.le_of_not_lt whole, _, rfl, rfl, rfl⟩)

theorem nextFrame_short {items : List UInt8} (short : items.length < 5) :
    nextFrame items = .wait := by
  match items with
  | [] | [_] | [_, _] | [_, _, _] | [_, _, _, _] => rfl
  | _ :: _ :: _ :: _ :: _ :: rest =>
      simp only [List.length_cons] at short
      omega

/-- A verdict other than to wait is one on a header. -/
theorem exists_header {items : List UInt8} (decides : nextFrame items ≠ .wait) :
    ∃ first second third fourth kind rest,
      items = first :: second :: third :: fourth :: kind :: rest := by
  match items with
  | [] | [_] | [_, _] | [_, _, _] | [_, _, _, _] => exact absurd rfl decides
  | first :: second :: third :: fourth :: kind :: rest => exact ⟨_, _, _, _, _, _, rfl⟩

/-- A taken frame, its header and its body. -/
theorem nextFrame_take {items : List UInt8} {size : Nat} {frame : Frame}
    (takes : nextFrame items = .take size frame) :
    ∃ first second third fourth rest,
      items = first :: second :: third :: fourth :: frame.kind :: rest ∧
      ¬maxFrameBody < fromBe [first, second, third, fourth] ∧
      fromBe [first, second, third, fourth] ≤ rest.length ∧
      frame.body.bytes = rest.take (fromBe [first, second, third, fourth]) ∧
      size = 5 + fromBe [first, second, third, fourth] := by
  obtain ⟨first, second, third, fourth, kind, rest, rfl⟩ :=
    exists_header (by rw [takes]; exact nofun)
  rcases nextFrame_cons first second third fourth kind rest with
    ⟨_, same⟩ | ⟨_, _, same⟩ | ⟨small, whole, other, rfl, body, same⟩
  · cases takes.symm.trans same
  · cases takes.symm.trans same
  · cases takes.symm.trans same
    exact ⟨_, _, _, _, rest, rfl, small, whole, body, rfl⟩

/-- A header with its whole body is taken. -/
theorem nextFrame_of_body {first second third fourth : UInt8} {rest : List UInt8} {frame : Frame}
    (small : ¬maxFrameBody < fromBe [first, second, third, fourth])
    (whole : fromBe [first, second, third, fourth] ≤ rest.length)
    (body : frame.body.bytes = rest.take (fromBe [first, second, third, fourth])) :
    nextFrame (first :: second :: third :: fourth :: frame.kind :: rest)
      = .take (5 + fromBe [first, second, third, fourth]) frame := by
  rcases nextFrame_cons first second third fourth frame.kind rest with
    ⟨large, _⟩ | ⟨_, short, _⟩ | ⟨_, _, other, kind, otherBody, same⟩
  · exact absurd large small
  · exact absurd whole (Nat.not_le_of_gt short)
  · rw [same, Frame.ext_bytes kind (otherBody.trans body.symm)]

/-- The framer of peering streams. -/
def framing : Framer UInt8 Frame String where
  next := nextFrame
  wait_nil := rfl
  stop_append := by
    intro items error stops more
    obtain ⟨first, second, third, fourth, kind, rest, rfl⟩ :=
      exists_header (by rw [stops]; exact nofun)
    rcases nextFrame_cons first second third fourth kind rest with
      ⟨large, same⟩ | ⟨_, _, same⟩ | ⟨_, _, _, _, _, same⟩
    · rcases nextFrame_cons first second third fourth kind (rest ++ more) with
        ⟨_, again⟩ | ⟨small, _⟩ | ⟨small, _⟩
      · exact again.trans (same.symm.trans stops)
      · exact absurd large small
      · exact absurd large small
    · cases stops.symm.trans same
    · cases stops.symm.trans same
  take_append := by
    intro items size frame takes more
    obtain ⟨first, second, third, fourth, rest, rfl, small, whole, body, rfl⟩ :=
      nextFrame_take takes
    refine nextFrame_of_body small ?_ ?_
    · exact Nat.le_trans whole (by rw [List.append_eq, List.length_append]; omega)
    · rw [List.append_eq, List.take_append_of_le_length whole]
      exact body
  take_local := by
    intro items size frame takes
    obtain ⟨first, second, third, fourth, rest, rfl, small, whole, body, rfl⟩ :=
      nextFrame_take takes
    generalize length : fromBe [first, second, third, fourth] = bodyLen at *
    have header : (first :: second :: third :: fourth :: frame.kind :: rest).take (5 + bodyLen)
        = first :: second :: third :: fourth :: frame.kind :: rest.take bodyLen := by
      rw [Nat.add_comm]
      rfl
    rw [header]
    subst length
    refine nextFrame_of_body small ?_ ?_
    · rw [List.length_take]
      omega
    · rw [List.take_take, Nat.min_self]
      exact body
  take_pos := by
    intro items size frame takes
    obtain ⟨_, _, _, _, _, _, _, _, _, rfl⟩ := nextFrame_take takes
    omega
  take_le := by
    intro items size frame takes
    obtain ⟨_, _, _, _, rest, rfl, _, whole, _, rfl⟩ := nextFrame_take takes
    simp only [List.length_cons]
    omega

/-! ## Payloads -/

/-- What `decompress_data_frame` returns. -/
def dataPayload (decompress : Slice → Nat → Option Slice) (body : Slice) : Option Slice :=
  if body.length < 5 then none
  else
    let size := fromLe (body.cut 0 4).bytes
    if size = 0 ∨ maxPayload < size then none else decompress (body.cut 4 body.length) size

/-- What a frame hands to `track_payload`. -/
def Frame.payload (decompress : Slice → Nat → Option Slice) (frame : Frame) : Option Slice :=
  if frame.kind = 0x01 then dataPayload decompress frame.body
  else if frame.kind = 0x00 ∧ frame.body.bytes.head? = some 0x01 then some frame.body
  else none

variable (decompress : Slice → Nat → Option Slice)

theorem decompressDataFrame_run (body : Slice) :
    (decompressDataFrame decompress body).run = .ok (dataPayload decompress body) := by
  unfold decompressDataFrame dataPayload
  split
  · rfl
  next long =>
  obtain ⟨first, firstAt⟩ := body.exists_getElem?_of_lt (show 0 < body.length by omega)
  obtain ⟨second, secondAt⟩ := body.exists_getElem?_of_lt (show 1 < body.length by omega)
  obtain ⟨third, thirdAt⟩ := body.exists_getElem?_of_lt (show 2 < body.length by omega)
  obtain ⟨fourth, fourthAt⟩ := body.exists_getElem?_of_lt (show 3 < body.length by omega)
  have size : (body.cut 0 4).bytes = [first, second, third, fourth] :=
    cut_four body firstAt secondAt thirdAt fourthAt
  rw [run_lift_bind (body.byteAt_of_some firstAt), run_lift_bind (body.byteAt_of_some secondAt),
    run_lift_bind (body.byteAt_of_some thirdAt), run_lift_bind (body.byteAt_of_some fourthAt),
    size]
  dsimp only
  split
  · rfl
  · rw [run_lift_bind (body.range_of_le (by omega) (Nat.le_refl _))]
    rfl

/-- Track the payload of a frame, if it has one. -/
def Frame.track (frame : Frame) (assembly : Assembly) (arrival wallMs now : Nat) :
    Checked Assembly :=
  match frame.payload decompress with
  | some payload => trackPayload payload assembly arrival wallMs now
  | none => pure assembly

theorem trackFrame_eq (frame : Frame) (assembly : Assembly) (arrival wallMs now : Nat) :
    trackFrame decompress frame.kind frame.body assembly arrival wallMs now =
      frame.track decompress assembly arrival wallMs now := by
  unfold trackFrame Frame.track Frame.payload
  split
  · exact bind_of_ok (decompressDataFrame_run decompress frame.body) _
  split
  · rfl
  · rfl

/-- Track frames in order; `now` is read at the offset where a frame starts. -/
def trackFrames (arrival wallMs : Nat) (now : Nat → Nat) :
    List (Nat × Frame) → Assembly → Checked Assembly
  | [], assembly => pure assembly
  | (stop, frame) :: frames, assembly =>
      frame.track decompress assembly arrival wallMs (now (stop - frame.size)) >>=
        trackFrames arrival wallMs now frames

/-! ## The loop -/

/-- One round of the loop does what the framer decides on the bytes from the offset on. -/
theorem drainFrames_step (buf : Slice) (arrival wallMs : Nat) (now : Nat → Nat) (fuel : Nat)
    {offset : Nat} (assembly : Assembly) (within : offset ≤ buf.length) :
    drainFrames decompress buf arrival wallMs now (fuel + 1) offset assembly =
      match framing.next (buf.bytes.drop offset) with
      | .wait => pure { offset := offset, assembly := assembly, desync := none }
      | .stop error => pure { offset := offset, assembly := assembly, desync := some error }
      | .take size frame =>
          trackFrame decompress frame.kind frame.body assembly arrival wallMs (now offset) >>=
            drainFrames decompress buf arrival wallMs now fuel (offset + size) := by
  have length : (buf.bytes.drop offset).length = buf.length - offset := List.length_drop
  unfold drainFrames
  rw [bind_of_ok (subUsize_of_le within)]
  split
  · next short =>
      have waits : framing.next (buf.bytes.drop offset) = .wait :=
        nextFrame_short (by rw [length]; exact short)
      rw [waits]
  next long =>
  obtain ⟨first, firstAt⟩ := buf.exists_getElem?_of_lt (show offset < buf.length by omega)
  obtain ⟨second, secondAt⟩ := buf.exists_getElem?_of_lt (show offset + 1 < buf.length by omega)
  obtain ⟨third, thirdAt⟩ := buf.exists_getElem?_of_lt (show offset + 2 < buf.length by omega)
  obtain ⟨fourth, fourthAt⟩ := buf.exists_getElem?_of_lt (show offset + 3 < buf.length by omega)
  obtain ⟨kind, kindAt⟩ := buf.exists_getElem?_of_lt (show offset + 4 < buf.length by omega)
  have bound : ∀ {index}, index ≤ buf.length → index < usizeBound := buf.lt_usizeBound
  rw [bind_of_ok (buf.byteAt_of_some firstAt), bind_of_ok (addUsize_of_lt (bound (by omega))),
    bind_of_ok (buf.byteAt_of_some secondAt), bind_of_ok (addUsize_of_lt (bound (by omega))),
    bind_of_ok (buf.byteAt_of_some thirdAt), bind_of_ok (addUsize_of_lt (bound (by omega))),
    bind_of_ok (buf.byteAt_of_some fourthAt)]
  have header : buf.bytes.drop offset
      = first :: second :: third :: fourth :: kind :: buf.bytes.drop (offset + 5) := by
    rw [buf.drop_of_some firstAt, buf.drop_of_some secondAt, buf.drop_of_some thirdAt,
      buf.drop_of_some fourthAt, buf.drop_of_some kindAt]
  have behind : (buf.bytes.drop (offset + 5)).length = buf.length - (offset + 5) :=
    List.length_drop
  have verdict := nextFrame_cons first second third fourth kind (buf.bytes.drop (offset + 5))
  rw [← header, behind] at verdict
  generalize fromBe [first, second, third, fourth] = bodyLen at *
  dsimp only
  rcases verdict with ⟨large, stops⟩ | ⟨small, short, waits⟩ | ⟨small, whole, frame, sameKind, body,
    takes⟩
  · have stops : framing.next (buf.bytes.drop offset) = .stop (oversize bodyLen) := stops
    rw [if_pos large, stops]
    rfl
  · have waits : framing.next (buf.bytes.drop offset) = .wait := waits
    have total : 5 + bodyLen < usizeBound :=
      Nat.lt_of_le_of_lt (Nat.add_le_add_left (Nat.le_of_not_lt small) 5) (by decide)
    rw [if_neg small, bind_of_ok (addUsize_of_lt total), if_pos (by omega), waits]
  · have takes : framing.next (buf.bytes.drop offset) = .take (5 + bodyLen) frame := takes
    have total : 5 + bodyLen < usizeBound := bound (by omega)
    have sameBody : buf.cut (offset + 5) (offset + (5 + bodyLen)) = frame.body := by
      refine Slice.eq_of_bytes ?_
      rw [body]
      unfold Slice.cut
      dsimp only
      rw [List.drop_take]
      congr 1
      omega
    rw [if_neg small, bind_of_ok (addUsize_of_lt total), if_neg (by omega),
      bind_of_ok (addUsize_of_lt (bound (by omega))), bind_of_ok (buf.byteAt_of_some kindAt),
      bind_of_ok (addUsize_of_lt (bound (by omega))),
      bind_of_ok (addUsize_of_lt (bound (by omega))),
      bind_of_ok (buf.range_of_le (by omega) (by omega)), sameBody, takes, ← sameKind]
    refine bind_congr fun tracked => ?_
    exact bind_of_ok (addUsize_of_lt (bound (by omega))) _

theorem size_of_take {items : List UInt8} {size : Nat} {frame : Frame}
    (takes : framing.next items = .take size frame) : size = frame.size := by
  obtain ⟨_, _, _, _, rest, _, _, whole, body, rfl⟩ := nextFrame_take takes
  unfold Frame.size Slice.length
  rw [body, List.length_take_of_le whole]

/-- The loop tracks the frames of the framer in order, and stops where it does. -/
theorem drainFrames_eq (buf : Slice) (arrival wallMs : Nat) (now : Nat → Nat) (fuel : Nat)
    {offset : Nat} (assembly : Assembly) (within : offset ≤ buf.length)
    (enough : buf.length < fuel + offset) :
    drainFrames decompress buf arrival wallMs now fuel offset assembly =
      trackFrames decompress arrival wallMs now
        (framing.drain offset (buf.bytes.drop offset)).frames assembly >>= fun after =>
      pure
        { offset := (framing.drain offset (buf.bytes.drop offset)).reached
          assembly := after
          desync := (framing.drain offset (buf.bytes.drop offset)).error } := by
  induction fuel generalizing offset assembly with
  | zero => omega
  | succ fuel ih =>
      rw [drainFrames_step decompress buf arrival wallMs now fuel assembly within]
      cases verdict : framing.next (buf.bytes.drop offset) with
      | wait =>
          rw [Framer.drain_wait verdict]
          rfl
      | stop error =>
          rw [Framer.drain_stop verdict]
          rfl
      | take size frame =>
          have positive := framing.take_pos verdict
          have inside := framing.take_le verdict
          have length : (buf.bytes.drop offset).length = buf.length - offset := List.length_drop
          have start : offset + size - frame.size = offset := by
            rw [← size_of_take verdict, Nat.add_sub_cancel]
          rw [Framer.drain_take verdict, List.drop_drop]
          dsimp only
          rw [trackFrames, trackFrame_eq, start, bind_assoc]
          exact bind_congr fun tracked => ih tracked (by omega) (by omega)

/-- A call hands on the payloads of the frames in its buffer and leaves what is left. -/
theorem consumeFrames_eq (buf : Slice) :
    ∃ left : Slice, ((framing.drain 0 buf.bytes).error = none →
        left.bytes = (framing.drain 0 buf.bytes).left) ∧
      ∀ assembly arrival wallMs now,
        consumeFrames decompress buf assembly arrival wallMs now =
          trackFrames decompress arrival wallMs now (framing.drain 0 buf.bytes).frames assembly >>=
            fun after => pure (left, after, (framing.drain 0 buf.bytes).error) := by
  have loop := fun assembly arrival wallMs now =>
    drainFrames_eq decompress buf arrival wallMs now (buf.length + 1) assembly
      (Nat.zero_le _) (by omega)
  simp only [List.drop_zero] at loop
  unfold consumeFrames
  simp only [loop, bind_assoc]
  cases ended : (framing.drain 0 buf.bytes).error with
  | some error => exact ⟨buf, nofun, fun _ _ _ _ => bind_congr fun _ => rfl⟩
  | none =>
      obtain ⟨taken, same⟩ := Framer.drain_left framing 0 buf.bytes
      have length := congrArg List.length same
      have reached := Framer.drain_reached framing 0 buf.bytes
      rw [Nat.zero_add] at reached
      rw [List.length_append] at length
      have here : (framing.drain 0 buf.bytes).reached = taken.length := by omega
      have within : taken.length ≤ buf.length := by
        change _ ≤ buf.bytes.length
        omega
      refine ⟨buf.cut taken.length buf.length, fun _ => ?_, fun assembly arrival wallMs now =>
        bind_congr fun after => ?_⟩
      · unfold Slice.cut Slice.length
        dsimp only
        rw [List.take_length]
        exact (congrArg (List.drop taken.length) same).trans List.drop_left
      · rw [pure_bind, here]
        dsimp only
        rw [bind_of_ok (buf.range_of_le within (Nat.le_refl _))]

/-! ## Reads -/

/-- The pieces of the stream, each stamped with its read. -/
def pieces (reads : List Read) : List (List UInt8 × Read) :=
  reads.map fun read => (read.chunk.bytes, read)

/-- Track the frames that each read completed, under the clocks of that read. -/
def replay : List (Framer.Batch Frame Read) → Assembly → Checked Assembly
  | [], assembly => pure assembly
  | batch :: batches, assembly =>
      trackFrames decompress batch.stamp.arrival batch.stamp.wallMs
        (fun start => batch.stamp.now (start - batch.base)) batch.frames
        (batch.stamp.since assembly) >>= replay batches

/-- Frames of a buffer are tracked under its own clock also where the stream numbers them. -/
theorem trackFrames_shift (arrival wallMs : Nat) (now : Nat → Nat) (base : Nat)
    (frames : List (Nat × Frame)) (assembly : Assembly) :
    trackFrames decompress arrival wallMs (fun start => now (start - base))
      (frames.map fun frame => (base + frame.1, frame.2)) assembly
        = trackFrames decompress arrival wallMs now frames assembly := by
  induction frames generalizing assembly with
  | nil => rfl
  | cons head frames ih =>
      obtain ⟨stop, frame⟩ := head
      have start : base + stop - frame.size - base = stop - frame.size := by omega
      rw [List.map_cons, trackFrames, trackFrames, start]
      exact bind_congr fun tracked => ih tracked

theorem length_of_wait {items : List UInt8} (waits : framing.next items = .wait) :
    items.length < 5 + maxFrameBody := by
  match items with
  | [] | [_] | [_, _] | [_, _, _] | [_, _, _, _] =>
      simp only [List.length_cons, List.length_nil]
      omega
  | first :: second :: third :: fourth :: kind :: rest =>
      have waits : nextFrame (first :: second :: third :: fourth :: kind :: rest) = .wait := waits
      rcases nextFrame_cons first second third fourth kind rest with
        ⟨_, same⟩ | ⟨small, short, _⟩ | ⟨_, _, _, _, _, same⟩
      · cases waits.symm.trans same
      · simp only [List.length_cons]
        omega
      · cases waits.symm.trans same

/-- The reads track the frames of the stream, batch by batch. -/
theorem readAll_eq (reads : List Read) (base : Nat) {buf : Slice}
    (waits : framing.next buf.bytes = .wait) :
    ∃ left : Slice, ((framing.feed base buf.bytes (pieces reads)).error = none →
        left.bytes = (framing.feed base buf.bytes (pieces reads)).left) ∧
      ∀ assembly, readAll decompress reads buf assembly =
        replay decompress (framing.feed base buf.bytes (pieces reads)).batches assembly >>=
          fun after => pure (left, after, (framing.feed base buf.bytes (pieces reads)).error) := by
  induction reads generalizing base buf with
  | nil => exact ⟨buf, fun _ => rfl, fun _ => rfl⟩
  | cons read reads ih =>
      have room : buf.length + read.chunk.length ≤ isizeMax :=
        Nat.le_trans (Nat.add_le_add (length_of_wait waits).le read.fits) (by decide)
      obtain ⟨both, extended, bytes⟩ := buf.returns_extend room
      obtain ⟨left, leftover, consumed⟩ := consumeFrames_eq decompress both
      have shifted := Framer.drain_shift framing base 0 both.bytes
      rw [Nat.add_zero, bytes] at shifted
      have batch : ∀ assembly, trackFrames decompress read.arrival read.wallMs
          (fun start => read.now (start - base))
            (framing.drain base (buf.bytes ++ read.chunk.bytes)).frames assembly
          = trackFrames decompress read.arrival read.wallMs read.now
            (framing.drain 0 both.bytes).frames assembly := by
        intro assembly
        rw [shifted, bytes]
        exact trackFrames_shift decompress _ _ read.now base _ _
      have step : ∀ assembly, readAll decompress (read :: reads) buf assembly =
          trackFrames decompress read.arrival read.wallMs read.now
            (framing.drain 0 both.bytes).frames (read.since assembly) >>= fun tracked =>
          (framing.drain 0 both.bytes).error.elim (readAll decompress reads left tracked)
            fun error => pure (left, tracked, some error) := by
        intro assembly
        rw [readAll, bind_of_ok extended, consumed, bind_assoc]
        refine bind_congr fun tracked => (pure_bind _ _).trans ?_
        cases (framing.drain 0 both.bytes).error <;> rfl
      cases ended : (framing.drain 0 both.bytes).error with
      | some error =>
          have failed : (framing.drain base (buf.bytes ++ read.chunk.bytes)).error
              = some error := by
            rw [shifted]
            rwa [bytes] at ended
          rw [pieces, List.map_cons, Framer.feed_cons_of_error failed]
          refine ⟨left, fun ended => absurd ended (Option.some_ne_none error), fun assembly => ?_⟩
          rw [step, ended, replay, batch, bind_assoc]
          rfl
      | none =>
          have settled : (framing.drain base (buf.bytes ++ read.chunk.bytes)).error = none := by
            rw [shifted]
            rwa [bytes] at ended
          have kept : left.bytes
              = (framing.drain base (buf.bytes ++ read.chunk.bytes)).left := by
            rw [leftover ended, shifted, bytes]
          have waitsAgain : framing.next left.bytes = .wait := by
            rw [kept]
            exact Framer.drain_left_waits _ _ settled
          obtain ⟨rest, restLeft, run⟩ := ih
            (framing.drain base (buf.bytes ++ read.chunk.bytes)).reached waitsAgain
          rw [kept] at restLeft run
          rw [pieces, List.map_cons, Framer.feed_cons settled]
          refine ⟨rest, restLeft, fun assembly => ?_⟩
          rw [step, ended, replay, batch, bind_assoc]
          exact bind_congr run

theorem returns_track (frame : Frame) (assembly : Assembly) (arrival wallMs now : Nat) :
    Returns (frame.track decompress assembly arrival wallMs now) fun _ => True := by
  unfold Frame.track
  split
  · exact returns_trackPayload _ assembly arrival wallMs now
  · exact Returns.pure trivial

theorem returns_trackFrames (arrival wallMs : Nat) (now : Nat → Nat)
    (frames : List (Nat × Frame)) (assembly : Assembly) :
    Returns (trackFrames decompress arrival wallMs now frames assembly) fun _ => True := by
  induction frames generalizing assembly with
  | nil => exact Returns.pure trivial
  | cons head frames ih =>
      obtain ⟨stop, frame⟩ := head
      unfold trackFrames
      exact Returns.bind (returns_track decompress frame assembly arrival wallMs _)
        fun tracked _ => ih tracked

theorem returns_replay (batches : List (Framer.Batch Frame Read)) (assembly : Assembly) :
    Returns (replay decompress batches assembly) fun _ => True := by
  induction batches generalizing assembly with
  | nil => exact Returns.pure trivial
  | cons batch batches ih =>
      unfold replay
      exact Returns.bind (returns_trackFrames decompress _ _ _ _ _) fun tracked _ => ih tracked

/-- The payloads that frames hand to `track_payload`, each with the position past its frame. -/
def handed (frames : List (Nat × Frame)) : List (Nat × Slice) :=
  frames.filterMap fun frame => (frame.2.payload decompress).map fun payload => (frame.1, payload)

/-- However a stream is cut into reads, they hand on the payloads that one call on the whole
stream hands on, with the same error and without one the same bytes left; and every frame is
tracked in the read that brought its last byte. -/
theorem framing_independent_of_reads (reads : List Read) (whole : Slice)
    (cut : (reads.map fun read => read.chunk.bytes).flatten = whole.bytes) :
    let fed := framing.feed 0 [] (pieces reads)
    let once := framing.drain 0 whole.bytes
    (∃ left : Slice, (fed.error = none → left.bytes = fed.left) ∧
      ∀ assembly, ∃ after, replay decompress fed.batches assembly = .ok after ∧
        readAll decompress reads Slice.empty assembly = .ok (left, after, fed.error)) ∧
    (∃ left : Slice, (once.error = none → left.bytes = once.left) ∧
      ∀ assembly arrival wallMs now, ∃ after,
        trackFrames decompress arrival wallMs now once.frames assembly = .ok after ∧
        consumeFrames decompress whole assembly arrival wallMs now
          = .ok (left, after, once.error)) ∧
    handed decompress (fed.frames.map Prod.fst) = handed decompress once.frames ∧
    fed.error = once.error ∧ (once.error = none → fed.left = once.left) ∧
    ∀ frame ∈ fed.frames, ∃ before after, reads = before ++ frame.2 :: after ∧
      (before.map fun read => read.chunk.bytes).flatten.length < frame.1.1 ∧
      frame.1.1 ≤ (before.map fun read => read.chunk.bytes).flatten.length
        + frame.2.chunk.length := by
  have bytes : ((pieces reads).map Prod.fst).flatten = whole.bytes := by
    rw [← cut, pieces, List.map_map]
    rfl
  obtain ⟨frames, error, left⟩ := Framer.feed_eq_drain framing.wait_nil 0 (pieces reads)
  rw [List.nil_append, bytes] at frames error left
  refine ⟨?_, ?_, congrArg (handed decompress) frames, error, left, ?_⟩
  · obtain ⟨rest, kept, run⟩ := readAll_eq decompress reads 0
      (show framing.next Slice.empty.bytes = .wait from framing.wait_nil)
    refine ⟨rest, kept, fun assembly => ?_⟩
    obtain ⟨after, ran, _⟩ := returns_replay decompress
      (framing.feed 0 [] (pieces reads)).batches assembly
    exact ⟨after, ran, (run assembly).trans (bind_of_ok ran _)⟩
  · obtain ⟨rest, kept, run⟩ := consumeFrames_eq decompress whole
    refine ⟨rest, kept, fun assembly arrival wallMs now => ?_⟩
    obtain ⟨after, ran, _⟩ := returns_trackFrames decompress arrival wallMs now
      (framing.drain 0 whole.bytes).frames assembly
    exact ⟨after, ran, (run assembly arrival wallMs now).trans (bind_of_ok ran _)⟩
  · intro frame member
    obtain ⟨before, piece, after, split, started, ended⟩ :=
      Framer.feed_stamps framing.wait_nil 0 (pieces reads) frame member
    obtain ⟨earlier, rest, rfl, rfl, later⟩ := List.map_eq_append_iff.mp split
    obtain ⟨read, others, rfl, same, _⟩ := List.map_eq_cons_iff.mp later
    cases same
    rw [List.map_map] at started ended
    rw [List.length_nil, Nat.add_zero, Nat.zero_add] at started ended
    exact ⟨earlier, others, rfl, started, ended⟩

/-- A data frame whose block is its own payload of two bytes. -/
def sampleFrame (first second : UInt8) : Frame where
  kind := 0x01
  body := ⟨[2, 0, 0, 0, first, second], Nat.le_of_ble_eq_true rfl⟩

/-- Two data frames and the first bytes of a header. -/
def sampleStream : Slice where
  bytes := [0, 0, 0, 6, 1, 2, 0, 0, 0, 7, 8] ++ [0, 0, 0, 6, 1, 2, 0, 0, 0, 9, 10] ++ [0, 0]
  short := by decide

/-- The stream cut in the first body and in the second header. -/
def sampleReads : List Read :=
  [ { chunk := ⟨[0, 0, 0, 6, 1, 2, 0], by decide⟩, fits := by decide, since := id
      arrival := 1, wallMs := 1, now := fun _ => 1 },
    { chunk := ⟨[0, 0, 7, 8, 0, 0], by decide⟩, fits := by decide, since := id
      arrival := 2, wallMs := 2, now := fun _ => 2 },
    { chunk := ⟨[0, 6, 1, 2, 0, 0, 0, 9, 10, 0, 0], by decide⟩, fits := by decide, since := id
      arrival := 3, wallMs := 3, now := fun _ => 3 } ]

theorem drain_sampleStream : framing.drain 0 sampleStream.bytes =
    { frames := [(11, sampleFrame 7 8), (22, sampleFrame 9 10)]
      reached := 22
      left := [0, 0]
      error := none } := by
  rw [Framer.drain_take (show framing.next _ = .take 11 (sampleFrame 7 8) from rfl),
    Framer.drain_take (show framing.next _ = .take 11 (sampleFrame 9 10) from rfl),
    Framer.drain_wait (show framing.next _ = .wait from rfl)]
  rfl

/-- The three reads end after 7, 13 and 24 bytes. -/
theorem arrival_of_cut {before after : List Read} {read : Read} {stop : Nat}
    (cut : sampleReads = before ++ read :: after)
    (started : (before.map fun read => read.chunk.bytes).flatten.length < stop)
    (ended : stop ≤ (before.map fun read => read.chunk.bytes).flatten.length + read.chunk.length) :
    read.arrival = if stop ≤ 7 then 1 else if stop ≤ 13 then 2 else 3 := by
  have taken : before = sampleReads.take before.length := by rw [cut, List.take_left]
  have here : sampleReads[before.length]? = some read := by
    rw [cut, List.getElem?_append_right (Nat.le_refl _), Nat.sub_self, List.getElem?_cons_zero]
  generalize before.length = count at taken here
  subst taken
  match count with
  | 0 =>
      cases here
      have first : stop ≤ 7 := ended
      rw [if_pos first]
  | 1 =>
      cases here
      have later : 7 < stop := started
      have second : stop ≤ 13 := ended
      rw [if_neg (Nat.not_le_of_gt later), if_pos second]
  | 2 =>
      cases here
      have later : 13 < stop := started
      rw [if_neg (Nat.not_le_of_gt (Nat.lt_trans (by decide) later)),
        if_neg (Nat.not_le_of_gt later)]
  | _ + 3 => cases here

/-- Both payloads are handed on with the arrivals of the second and the third read. -/
theorem framing_independent_sample :
    let block : Slice → Nat → Option Slice := fun block _ => some block
    let fed := framing.feed 0 [] (pieces sampleReads)
    (∃ left : Slice, left.bytes = [0, 0] ∧ ∀ assembly, ∃ after,
      readAll block sampleReads Slice.empty assembly = .ok (left, after, none)) ∧
    (∃ left : Slice, left.bytes = [0, 0] ∧ ∀ assembly arrival wallMs now, ∃ after,
      consumeFrames block sampleStream assembly arrival wallMs now = .ok (left, after, none)) ∧
    (handed block (fed.frames.map Prod.fst)).map (fun payload => (payload.1, payload.2.bytes)) =
      [(11, [7, 8]), (22, [9, 10])] ∧
    ∀ frame ∈ fed.frames, frame.2.arrival =
      if frame.1.1 ≤ 7 then 1 else if frame.1.1 ≤ 13 then 2 else 3 := by
  intro block fed
  obtain ⟨⟨left, kept, reads⟩, ⟨rest, restKept, once⟩, payloads, error, leftover, stamps⟩ :=
    framing_independent_of_reads block sampleReads sampleStream rfl
  rw [drain_sampleStream] at restKept once payloads error leftover
  refine ⟨⟨left, (kept error).trans (leftover rfl), fun assembly => ?_⟩,
    ⟨rest, restKept rfl, fun assembly arrival wallMs now => ?_⟩, ?_, fun frame member => ?_⟩
  · obtain ⟨after, _, ran⟩ := reads assembly
    rw [error] at ran
    exact ⟨after, ran⟩
  · obtain ⟨after, _, ran⟩ := once assembly arrival wallMs now
    exact ⟨after, ran⟩
  · rw [payloads]
    rfl
  · obtain ⟨before, after, cut, started, ended⟩ := stamps frame member
    exact arrival_of_cut cut started ended

end MarketBenchmark.Peering
