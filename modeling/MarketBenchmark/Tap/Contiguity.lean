import MarketBenchmark.Tap.Connection
import MarketBenchmark.Tap.Flow

/-!
# No splice across a hole

The segments of one connection reach its reassembler in any order, any number
of times and with any losses.  Between two resets the reassembler hands on a
contiguous part of the stream, and the buffer of the flow and every frame read
from it are contiguous parts too.
-/

namespace MarketBenchmark.Tap

open Foundation Foundation.Streams Foundation.Serial Foundation.Transducers

/-! ## Segments of a connection -/

namespace Delivery

/-- The bytes of a delivery; a reset has none. -/
def data : Delivery → List UInt8
  | .bytes data _ => data
  | .reset _ => []

def IsBytes (delivery : Delivery) : Prop := ∃ data wallNs, delivery = .bytes data wallNs

def chunk : Delivery → Chunk UInt8
  | .bytes data _ => .piece data
  | .reset _ => .restart

end Delivery

namespace Connection

/-- The captured segment is the part of the stream that starts at the offset; the
SYN comes right before the first byte. -/
structure Carries (c : Connection) (offset : Nat) (seg : Segment) : Prop where
  captured : seg.payload.length ≤ captureBytes
  occurs : OccursAt c.sent offset seg.payload
  syn : seg.IsSyn → seg.seq = c.isn ∧ offset = 0
  numbered : ¬seg.IsSyn → seg.payload ≠ [] → seg.seq = c.seqAt offset

/-- The offset is within `2 ^ 31` of the expected one. -/
def Near (expected offset : Nat) : Prop :=
  expected ≤ offset + halfSpace ∧ offset ≤ expected + halfSpace

instance (expected offset : Nat) : Decidable (Near expected offset) :=
  inferInstanceAs (Decidable (_ ∧ _))

/-- The offset that is expected when a segment comes: a SYN restarts the stream,
and without a position the segment's own offset is the first one. -/
def expected (position : Option Nat) (offset : Nat) (seg : Segment) : Nat :=
  if seg.IsSyn then 0 else position.getD offset

/-- The offset of the reassembler's `next`, at or after the base. -/
def position (c : Connection) (base : Nat) (r : Reassembler) : Option Nat :=
  r.next.map (positionFrom (c.isn + 1) base)

/-- The calls bring segments of the connection, each near the expected offset, and ticks. -/
inductive Tapped (c : Connection) : Reassembler → Option Nat → List TapCall → Prop
  | done {r : Reassembler} {position : Option Nat} : Tapped c r position []
  | push {r : Reassembler} {position : Option Nat} {seg : Segment} {now seen : Nat}
      {rest : List TapCall} (offset : Nat) (carries : c.Carries offset seg)
      (near : Near (expected position offset seg) offset)
      (later : Tapped c (r.push seg now seen).1
        (c.position (expected position offset seg) (r.push seg now seen).1) rest) :
      Tapped c r position (.push seg now seen :: rest)
  | tick {r : Reassembler} {position : Option Nat} {now : Nat} {rest : List TapCall}
      (later : Tapped c (r.tick now).1 (c.position (position.getD 0) (r.tick now).1) rest) :
      Tapped c r position (.tick now :: rest)

/-! ## Positions -/

/-- A reassembler that does not read is as new. -/
def Tracks (c : Connection) (r : Reassembler) : Option Nat → Prop
  | none => r = .default
  | some base => c.At r base

variable {c : Connection} {r : Reassembler} {base : Nat}

theorem At.position (at_ : c.At r base) {origin : Nat} (from_ : origin ≤ base)
    (close : base < origin + 2 ^ 32) : c.position origin r = some base := by
  unfold Connection.position
  rw [at_.next]
  exact congrArg some (positionFrom_numberAt from_ close)

theorem at_start (base : Nat) :
    c.At { Reassembler.default with next := some (c.seqAt base) } base where
  next := rfl
  ahead := fun _ member => absurd member OrderedMap.notMem_empty
  charged := Nat.le_refl _
  bounded := Nat.zero_le _

/-- What a part of `push` or `tick` does from one position to another. -/
structure Moves (c : Connection) (base : Nat) (result : Reassembler × List Delivery)
    (reached : Nat) : Prop where
  at_ : c.At result.1 reached
  inStep : InStep c.sent (some base) (result.2.map Delivery.chunk) (some reached)
  le : base ≤ reached

theorem Moves.refl (at_ : c.At r base) : c.Moves base (r, []) base :=
  ⟨at_, .done, Nat.le_refl _⟩

theorem Delivers.moves {payload : List UInt8} {result : Reassembler × List Delivery}
    {reached : Nat} (delivered : c.Delivers base r payload result reached) :
    c.Moves base result reached := by
  obtain ⟨data, wallNs, out, occurs, length⟩ := delivered.bytes
  refine ⟨delivered.at_, ?_, by omega⟩
  rw [out, length]
  exact .piece occurs .done

/-- A reset in front of the deliveries. -/
theorem Moves.reset {origin reached : Nat} {result : Reassembler × List Delivery} (reason : String)
    (moves : c.Moves base result reached) (from_ : origin ≤ base) :
    c.Moves origin (result.1, .reset reason :: result.2) reached :=
  ⟨moves.at_, .restart moves.inStep, Nat.le_trans from_ moves.le⟩

/-- Taking a segment moves the position by little, or empties the pending map. -/
theorem At.take (at_ : c.At r base) {offset : Nat} {payload : List UInt8} {wallNs seen : Nat}
    (nonempty : payload ≠ []) (captured : payload.length ≤ captureBytes)
    (occurs : OccursAt c.sent offset payload) (near : Near base offset) :
    ∃ reached, c.Moves base (r.take (c.seqAt offset) payload wallNs seen) reached ∧
      reached ≤ base + halfSpace + captureBytes + maxPendingBytes ∧
      ((r.take (c.seqAt offset) payload wallNs seen).1.pending.entries = [] ∨
        reached ≤ base + captureBytes + maxPendingBytes) := by
  obtain ⟨notFarBehind, notFarAhead⟩ := near
  have positive := List.length_pos_iff.mpr nonempty
  have bounded := at_.bounded
  have limits : captureBytes + maxPendingBytes ≤ halfSpace := by decide
  rcases Nat.lt_trichotomy base offset with after | same | started
  · rcases Nat.lt_or_eq_of_le notFarAhead with near | opposite
    · by_cases fits : r.pendingBytes + payload.length ≤ maxPendingBytes
      · rw [at_.take_hold after near fits]
        exact ⟨base, .refl (at_.hold wallNs seen after near fits occurs), by omega,
          Or.inr (by omega)⟩
      · rw [at_.take_full after near (Nat.lt_of_not_le fits)]
        obtain ⟨reached, delivered⟩ : ∃ reached, c.Delivers offset
            { r with pending := OrderedMap.empty, pendingBytes := 0 } payload _ reached :=
          delivers (fun _ member => absurd member OrderedMap.notMem_empty) (Nat.le_refl _)
            (Nat.zero_le _) (by dsimp only; omega) occurs
        have paid := delivered.paid
        refine ⟨reached, delivered.moves.reset _ after.le, by dsimp only at paid; omega,
          Or.inl (List.eq_nil_iff_forall_not_mem.mpr fun entry member => ?_)⟩
        exact absurd (delivered.kept entry member) OrderedMap.notMem_empty
    · rw [at_.take_opposite opposite (by omega)]
      exact ⟨base, .refl at_, by omega, Or.inr (by omega)⟩
  · subst same
    rw [at_.take_next]
    obtain ⟨reached, delivered⟩ := delivers at_.ahead at_.charged bounded (by omega) occurs
    have paid := delivered.paid
    exact ⟨reached, delivered.moves, by omega, Or.inr (by omega)⟩
  · rcases Nat.lt_or_ge base (offset + payload.length) with ends | behind
    · rw [at_.take_overlap started notFarBehind ends]
      have length : (payload.drop (base - offset)).length = payload.length - (base - offset) :=
        List.length_drop
      have occursRest : OccursAt c.sent (offset + (base - offset)) (payload.drop (base - offset)) :=
        occurs.drop (by omega)
      rw [Nat.add_sub_cancel' started.le] at occursRest
      obtain ⟨reached, delivered⟩ :=
        delivers at_.ahead at_.charged bounded (by omega) occursRest
      have paid := delivered.paid
      exact ⟨reached, delivered.moves, by omega, Or.inr (by omega)⟩
    · rw [at_.take_behind notFarBehind started behind]
      exact ⟨base, .refl at_, by omega, Or.inr (by omega)⟩

/-- Giving up on a hole moves the position into the half space ahead. -/
theorem At.expire (at_ : c.At r base) (now : Nat) :
    ∃ reached, c.Moves base (r.expire now) reached ∧
      reached ≤ base + halfSpace + maxPendingBytes ∧
      (r.pending.entries = [] → reached = base) := by
  have bounded := at_.bounded
  have limits : maxPendingBytes ≤ halfSpace := by decide
  unfold Reassembler.expire
  cases oldest : r.oldest with
  | none => exact ⟨base, .refl at_, by omega, fun _ => rfl⟩
  | some since =>
      dsimp only
      by_cases waits : now - since < reorderWait
      · rw [if_pos waits]
        exact ⟨base, .refl at_, by omega, fun _ => rfl⟩
      · rw [if_neg waits]
        cases nearest : r.nearest with
        | none => exact ⟨base, .refl at_, by omega, fun _ => rfl⟩
        | some entry =>
            obtain ⟨first, held⟩ := entry
            dsimp only
            have member : (first, held) ∈ r.pending := List.minOn?_mem nearest
            obtain ⟨offset, after, near, number, occurs, room, jumped⟩ := at_.jump nearest
            subst number
            rw [jumped.take_next]
            obtain ⟨reached, delivered⟩ := delivers jumped.ahead jumped.charged jumped.bounded
              (by dsimp only; omega) occurs
            have paid := delivered.paid
            refine ⟨reached, delivered.moves.reset _ after.le, ?_, fun none => ?_⟩
            · dsimp only at paid
              omega
            · rw [← OrderedMap.mem_entries, none] at member
              exact absurd member List.not_mem_nil

/-! ## One call -/

theorem resetIfReading_inStep {position : Option Nat} (tracks : c.Tracks r position)
    {reason : String} {chunks : List (Chunk UInt8)} {final : Option Nat} (start : Nat)
    (rest : InStep c.sent (some start) chunks final) :
    InStep c.sent position ((r.resetIfReading reason).map Delivery.chunk ++ chunks) final := by
  cases position with
  | none =>
      rw [show r = .default from tracks]
      exact .join start rest
  | some base =>
      unfold Reassembler.resetIfReading
      rw [tracks.next]
      exact .restart rest

/-- What a call does: it keeps the reassembler on the stream and reads on in step. -/
structure Steps (c : Connection) (position : Option Nat) (origin : Nat)
    (result : Reassembler × List Delivery) (final : Option Nat) : Prop where
  tracks : c.Tracks result.1 final
  inStep : InStep c.sent position (result.2.map Delivery.chunk) final
  located : c.position origin result.1 = final

theorem steps_silent {position : Option Nat} {result : Reassembler × List Delivery} {origin : Nat}
    (silent : result.1 = .default)
    (reset : InStep c.sent position (result.2.map Delivery.chunk) none) :
    c.Steps position origin result none := by
  refine ⟨silent, reset, ?_⟩
  rw [silent]
  rfl

/-- A payload that comes to a reassembler at a position near its offset. -/
theorem At.push_payload (at_ : c.At r base) {offset : Nat} {payload : List UInt8}
    (nonempty : payload ≠ []) (captured : payload.length ≤ captureBytes)
    (occurs : OccursAt c.sent offset payload) (near : Near base offset) (wallNs now seen : Nat) :
    ∃ reached, c.Steps (some base) base
      (((r.take (c.seqAt offset) payload wallNs seen).1.expire now).1,
        (r.take (c.seqAt offset) payload wallNs seen).2 ++
          ((r.take (c.seqAt offset) payload wallNs seen).1.expire now).2) (some reached) := by
  obtain ⟨taken, moves, takenLe, emptyOr⟩ := at_.take nonempty captured occurs near
  obtain ⟨reached, expires, expireLe, unmoved⟩ := moves.at_.expire now
  have limits : halfSpace + captureBytes + maxPendingBytes + maxPendingBytes < 2 ^ 32 - 1 := by
    decide
  have close : reached < base + 2 ^ 32 := by
    rcases emptyOr with empty | little
    · rw [unmoved empty]
      omega
    · omega
  refine ⟨reached, expires.at_, ?_, expires.at_.position (Nat.le_trans moves.le expires.le) close⟩
  dsimp only
  rw [List.map_append]
  exact moves.inStep.append expires.inStep

/-- A SYN restarts the stream. -/
theorem Tracks.push_syn {position : Option Nat} (tracks : c.Tracks r position) {offset : Nat}
    {seg : Segment} (carries : c.Carries offset seg) (syn : seg.IsSyn) (now seen : Nat) :
    ∃ final, c.Steps position 0 (r.push seg now seen) final := by
  obtain ⟨number, atStart⟩ := carries.syn syn
  subst atStart
  have first : seg.seq + 1 = c.seqAt 0 := by rw [number, seqAt_zero]
  have captured := carries.captured
  unfold Reassembler.push
  rw [if_pos syn, first]
  dsimp only
  by_cases empty : seg.payload = []
  · rw [if_pos empty]
    refine ⟨some 0, at_start 0, ?_, (at_start 0).position (Nat.le_refl _) (by decide)⟩
    have reset : InStep c.sent position
        ((r.resetIfReading "new connection (SYN)").map Delivery.chunk ++ []) (some 0) :=
      resetIfReading_inStep tracks 0 .done
    rwa [List.append_nil] at reset
  · have limits : captureBytes ≤ halfSpace := by decide
    have small : captureBytes < 2 ^ 32 := by decide
    rw [if_neg empty]
    obtain ⟨reached, delivered⟩ : ∃ reached, c.Delivers 0
        { Reassembler.default with next := some (c.seqAt 0) } seg.payload _ reached :=
      delivers (at_start 0).ahead (at_start 0).charged (at_start 0).bounded
        (Nat.le_trans captured limits) carries.occurs
    have paid := delivered.paid
    rw [show r.clear = .default from rfl, (at_start 0).take_next]
    refine ⟨some reached, delivered.at_, ?_, delivered.at_.position (Nat.zero_le _) ?_⟩
    · dsimp only
      rw [List.map_append]
      exact resetIfReading_inStep tracks 0 delivered.moves.inStep
    · dsimp only [Reassembler.default] at paid
      omega

theorem Tracks.push {position : Option Nat} (tracks : c.Tracks r position) {offset : Nat}
    {seg : Segment} (carries : c.Carries offset seg)
    (near : Near (expected position offset seg) offset) (now seen : Nat) :
    ∃ final, c.Steps position (expected position offset seg) (r.push seg now seen) final := by
  unfold expected at near ⊢
  by_cases syn : seg.IsSyn
  · rw [if_pos syn]
    exact tracks.push_syn carries syn now seen
  rw [if_neg syn] at near ⊢
  unfold Reassembler.push
  rw [if_neg syn]
  by_cases rst : seg.IsRst
  · rw [if_pos rst]
    refine ⟨none, steps_silent rfl ?_⟩
    cases position with
    | none =>
        rw [show r = .default from tracks]
        exact .done
    | some base =>
        unfold Reassembler.resetIfReading
        rw [tracks.next]
        exact .restart .done
  rw [if_neg rst]
  by_cases empty : seg.payload = []
  · rw [if_pos empty]
    cases position with
    | none =>
        rw [show r = .default from tracks, if_neg (fun both => nomatch both.2)]
        exact ⟨none, steps_silent rfl .done⟩
    | some base =>
        split
        · exact ⟨none, steps_silent rfl (.restart .done)⟩
        · exact ⟨some base, tracks, .done,
            At.position tracks (Nat.le_refl _) (Nat.lt_add_of_pos_right (by decide))⟩
  rw [if_neg empty, carries.numbered syn empty]
  dsimp only
  cases position with
  | none =>
      rw [show r = .default from tracks]
      have start : c.At { Reassembler.default with next := some (c.seqAt offset) } offset :=
        at_start offset
      obtain ⟨reached, steps⟩ := start.push_payload empty carries.captured carries.occurs near
        seg.wallNs now seen
      exact ⟨some reached, steps.tracks, .join offset steps.inStep, steps.located⟩
  | some base =>
      have joined : { r with next := some (r.next.getD (c.seqAt offset)) } = r := by
        rw [tracks.next]
        exact congrArg (fun next => { r with next := next }) tracks.next.symm
      rw [joined]
      obtain ⟨reached, steps⟩ := At.push_payload tracks empty carries.captured carries.occurs near
        seg.wallNs now seen
      exact ⟨some reached, steps⟩

theorem Tracks.tick {position : Option Nat} (tracks : c.Tracks r position) (now : Nat) :
    ∃ final, c.Steps position (position.getD 0) (r.tick now) final := by
  cases position with
  | none =>
      rw [show r = .default from tracks]
      exact ⟨none, steps_silent rfl .done⟩
  | some base =>
      obtain ⟨reached, moves, close, _⟩ := At.expire tracks now
      have limits : halfSpace + maxPendingBytes < 2 ^ 32 := by decide
      exact ⟨some reached, moves.at_, moves.inStep,
        moves.at_.position moves.le (by dsimp only [Option.getD_some]; omega)⟩

/-- Every call of a tapped connection reads on in step, whatever follows it. -/
theorem Tapped.cons {position : Option Nat} {call : TapCall} {rest : List TapCall}
    (tapped : c.Tapped r position (call :: rest)) (tracks : c.Tracks r position) :
    ∃ final, c.Tracks (r.call call).1 final ∧
      InStep c.sent position ((r.call call).2.map Delivery.chunk) final ∧
      c.Tapped (r.call call).1 final rest := by
  cases tapped with
  | push offset carries near later =>
      obtain ⟨final, steps⟩ := tracks.push carries near _ _
      rw [steps.located] at later
      exact ⟨final, steps.tracks, steps.inStep, later⟩
  | tick later =>
      obtain ⟨final, steps⟩ := tracks.tick _
      rw [steps.located] at later
      exact ⟨final, steps.tracks, steps.inStep, later⟩

theorem Tapped.inStep {position : Option Nat} {calls : List TapCall}
    (tapped : c.Tapped r position calls) (tracks : c.Tracks r position) :
    ∃ final, InStep c.sent position
      ((feed Reassembler.call r calls).2.map Delivery.chunk) final := by
  induction calls generalizing r position with
  | nil => exact ⟨position, .done⟩
  | cons call rest ih =>
      obtain ⟨middle, tracksOn, reads, later⟩ := tapped.cons tracks
      obtain ⟨final, readsOn⟩ := ih later tracksOn
      rw [feed_cons, List.map_append]
      exact ⟨final, reads.append readsOn⟩

end Connection

/-! ## Frames -/

variable {decompress : List UInt8 → Nat → Option (List UInt8)} {stream : List UInt8}

/-- What is left of a buffer is a tail of it, and every frame is a part of it. -/
theorem consumeFrames_spec (buf : List UInt8) :
    (∀ rest, (consumeFrames buf).2 = some rest → ∃ count, rest = buf.drop count) ∧
      ∀ frame ∈ (consumeFrames buf).1, frame.bytes <:+: buf := by
  fun_induction consumeFrames buf with
  | case1 buf short =>
      exact ⟨fun rest same => ⟨0, (Option.some.inj same).symm⟩, nofun⟩
  | case2 buf => exact ⟨nofun, nofun⟩
  | case3 buf => exact ⟨fun rest same => ⟨0, (Option.some.inj same).symm⟩, nofun⟩
  | case4 buf _ _ _ consumed ih =>
      obtain ⟨left, frames⟩ := ih
      refine ⟨fun rest same => ?_, fun frame member => ?_⟩
      · obtain ⟨count, tail⟩ := left rest same
        exact ⟨5 + bigEndian buf + count, by rw [tail, List.drop_drop]⟩
      · rcases List.mem_cons.mp member with rfl | later
        · exact (List.take_prefix _ buf).isInfix
        · exact (frames frame later).trans (List.drop_suffix _ buf).isInfix

namespace TapFlow

theorem consume_spec {position : Option Nat} {flow : TapFlow} {buf : List UInt8}
    (ends : EndsAt stream position buf) :
    EndsAt stream position (flow.consume buf).1.buf ∧
      ∀ frame ∈ (flow.consume buf).2, frame.bytes <:+: stream := by
  obtain ⟨left, frames⟩ := consumeFrames_spec buf
  unfold consume
  split
  · rename_i read rest consumed
    rw [consumed] at left frames
    obtain ⟨count, tail⟩ := left rest rfl
    refine ⟨?_, fun frame member => (frames frame member).trans ends.isInfix⟩
    dsimp only
    rw [tail]
    exact ends.drop count
  · rename_i read consumed
    rw [consumed] at frames
    exact ⟨Or.inl rfl, fun frame member => (frames frame member).trans ends.isInfix⟩

/-- A reset empties the buffer, so a frame never spans it. -/
theorem deliver_reset (flow : TapFlow) (reason : String) :
    flow.deliver decompress (.reset reason) = (flow.resynchronise, []) := rfl

theorem deliver_bytes {offset : Nat} {flow : TapFlow} {data : List UInt8} (wallNs : Nat)
    (ends : EndsAt stream (some offset) flow.buf) (occurs : OccursAt stream offset data) :
    EndsAt stream (some (offset + data.length))
        (flow.deliver decompress (.bytes data wallNs)).1.buf ∧
      ∀ frame ∈ (flow.deliver decompress (.bytes data wallNs)).2, frame.bytes <:+: stream := by
  have grown := ends.append occurs
  unfold deliver
  dsimp only
  by_cases synced : flow.synced = true
  · rw [if_pos synced]
    exact consume_spec grown
  · rw [if_neg synced]
    split
    · exact consume_spec (grown.drop _)
    · refine ⟨?_, nofun⟩
      dsimp only
      split
      · exact grown.drop _
      · exact grown

theorem deliver_reassembler (flow : TapFlow) (delivery : Delivery) :
    (flow.deliver decompress delivery).1.reassembler = flow.reassembler := by
  have consumed : ∀ buf, (flow.consume buf).1.reassembler = flow.reassembler := by
    intro buf
    unfold consume
    split <;> rfl
  cases delivery with
  | reset reason => rfl
  | bytes data wallNs =>
      unfold deliver
      dsimp only
      split
      · exact consumed _
      · split
        · exact consumed _
        · rfl

/-- A buffer that is empty for want of a position lies anywhere. -/
theorem endsAt_joined {buf : List UInt8} (offset : Nat) (ends : EndsAt stream none buf) :
    EndsAt stream (some offset) buf := by
  rcases ends with empty | ⟨_, _, impossible⟩
  · exact Or.inl empty
  · exact nomatch impossible

/-- A flow that handles deliveries in step keeps its buffer on the stream. -/
theorem feed_deliver {out : List Delivery} {position final : Option Nat} {flow : TapFlow}
    (reads : InStep stream position (out.map Delivery.chunk) final)
    (ends : EndsAt stream position flow.buf) :
    EndsAt stream final (feed (deliver decompress) flow out).1.buf ∧
      ∀ frame ∈ (feed (deliver decompress) flow out).2, frame.bytes <:+: stream := by
  generalize chunks : out.map Delivery.chunk = read at reads
  induction reads generalizing out flow with
  | done =>
      rw [List.map_eq_nil_iff.mp chunks]
      exact ⟨ends, nofun⟩
  | join offset _ ih => exact ih (endsAt_joined offset ends) chunks
  | piece occurs _ ih =>
      obtain ⟨delivery, rest, rfl, here, later⟩ := List.map_eq_cons_iff.mp chunks
      cases delivery with
      | reset reason => exact nomatch here
      | bytes data wallNs =>
          cases here
          obtain ⟨endsOn, frames⟩ := deliver_bytes wallNs ends occurs
          obtain ⟨endsLast, framesOn⟩ := ih endsOn later
          rw [feed_cons]
          refine ⟨endsLast, fun frame member => ?_⟩
          rcases List.mem_append.mp member with first | following
          · exact frames frame first
          · exact framesOn frame following
  | restart _ ih =>
      obtain ⟨delivery, rest, rfl, here, later⟩ := List.map_eq_cons_iff.mp chunks
      cases delivery with
      | bytes data wallNs => exact nomatch here
      | reset reason =>
          rw [feed_cons, deliver_reset]
          exact ih (Or.inl rfl) later

/-- The flow of a tapped connection keeps its buffer on the stream. -/
theorem feed_call {c : Connection} {calls : List TapCall} {position : Option Nat} {flow : TapFlow}
    (tapped : c.Tapped flow.reassembler position calls)
    (tracks : c.Tracks flow.reassembler position) (ends : EndsAt c.sent position flow.buf) :
    (feed (call decompress) flow calls).1.buf <:+: c.sent ∧
      ∀ frame ∈ (feed (call decompress) flow calls).2, frame.bytes <:+: c.sent := by
  induction calls generalizing flow position with
  | nil => exact ⟨ends.isInfix, nofun⟩
  | cons tapCall rest ih =>
      obtain ⟨middle, tracksOn, reads, later⟩ := tapped.cons tracks
      obtain ⟨endsOn, frames⟩ : EndsAt c.sent middle (flow.call decompress tapCall).1.buf ∧
          ∀ frame ∈ (flow.call decompress tapCall).2, frame.bytes <:+: c.sent :=
        feed_deliver reads ends
      have same : (flow.call decompress tapCall).1.reassembler =
          (flow.reassembler.call tapCall).1 :=
        feed_preserves (fun state => state.reassembler = (flow.reassembler.call tapCall).1)
          rfl fun state delivery _ kept => (deliver_reassembler state delivery).trans kept
      rw [← same] at tracksOn later
      obtain ⟨buffer, framesOn⟩ := ih later tracksOn endsOn
      rw [feed_cons]
      refine ⟨buffer, fun frame member => ?_⟩
      rcases List.mem_append.mp member with first | following
      · exact frames frame first
      · exact framesOn frame following

end TapFlow

/-! ## The tap never splices -/

/--
Whatever the segments of one connection suffer, the bytes between two resets
are contiguous in the stream, and so are the flow's buffer and every frame.
-/
theorem tap_never_splices {c : Connection} {calls : List TapCall}
    (tapped : c.Tapped .default none calls) :
    (∀ front middle back,
      (feed Reassembler.call .default calls).2 = front ++ middle ++ back →
        (∀ delivery ∈ middle, delivery.IsBytes) → middle.flatMap Delivery.data <:+: c.sent) ∧
      (feed (TapFlow.call decompress) .default calls).1.buf <:+: c.sent ∧
      ∀ frame ∈ (feed (TapFlow.call decompress) .default calls).2,
        frame.bytes <:+: c.sent := by
  refine ⟨fun front middle back split allBytes => ?_, TapFlow.feed_call tapped rfl (Or.inl rfl)⟩
  obtain ⟨final, reads⟩ := tapped.inStep rfl
  rw [split, List.append_assoc, List.map_append] at reads
  obtain ⟨start, reads⟩ := reads.after
  have pieces : middle.map Delivery.chunk = (middle.map Delivery.data).map Chunk.piece := by
    rw [List.map_map]
    refine List.map_congr_left fun delivery member => ?_
    obtain ⟨data, wallNs, rfl⟩ := allBytes delivery member
    rfl
  rw [List.map_append, pieces] at reads
  obtain ⟨offset, _, occurs⟩ := reads.contiguous
  rw [List.flatMap_def]
  exact occurs.isInfix

/-! ## A sample connection -/

/-- Its sequence numbers wrap right after the first byte. -/
def sampleConnection : Connection where
  sent := [10, 11, 12, 13, 14, 15, 16, 17]
  isn := BitVec.ofNat 32 (2 ^ 32 - 2)

def sampleSegment (offset : Nat) (payload : List UInt8) : Segment where
  dstPort := 50123
  seq := sampleConnection.seqAt offset
  flags := 0x18
  payload := payload
  wallNs := 0

def sampleSyn : Segment := { sampleSegment 0 [] with seq := sampleConnection.isn, flags := tcpSyn }

theorem sampleSegment_notSyn {offset : Nat} {payload : List UInt8} :
    ¬(sampleSegment offset payload).IsSyn := show ¬(0x18 : BitVec 8) &&& tcpSyn ≠ 0 by decide

theorem sampleSegment_carries {offset : Nat} {payload : List UInt8}
    (captured : payload.length ≤ captureBytes)
    (occurs : OccursAt sampleConnection.sent offset payload) :
    sampleConnection.Carries offset (sampleSegment offset payload) :=
  ⟨captured, occurs, fun syn => absurd syn sampleSegment_notSyn, fun _ _ => rfl⟩

/-- A reordered and repeated segment, then a hole that is never filled. -/
def sampleCalls : List TapCall :=
  [.push sampleSyn 0 0, .push (sampleSegment 2 [12, 13]) 0 0, .push (sampleSegment 0 [10, 11]) 0 0,
    .push (sampleSegment 1 [11, 12]) 0 0, .push (sampleSegment 6 [16, 17]) 0 0,
    .tick (fromMillis 300)]

theorem sampleCalls_tapped : sampleConnection.Tapped .default none sampleCalls :=
  .push 0 ⟨by decide, by decide, by decide, by decide⟩ (by decide)
    (.push 2 (sampleSegment_carries (by decide) (by decide)) (by decide +kernel)
      (.push 0 (sampleSegment_carries (by decide) (by decide)) (by decide +kernel)
        (.push 1 (sampleSegment_carries (by decide) (by decide)) (by decide +kernel)
          (.push 6 (sampleSegment_carries (by decide) (by decide)) (by decide +kernel)
            (.tick .done)))))

theorem tap_never_splices_sample :
    (feed (TapFlow.call fun _ _ => none) .default sampleCalls).1.buf <:+: sampleConnection.sent :=
  (tap_never_splices sampleCalls_tapped).2.1

end MarketBenchmark.Tap
