import MarketBenchmark.Tap.Contiguity
import MarketBenchmark.Tap.Stamps
import MarketBenchmark.Peering.Framing

/-!
# A tap hands on what a dial reads

A dial reads the stream of its connection from the first byte; a tap joins
anywhere, loses bytes and starts anew.  If the frames of the stream stand in a
row nowhere but where a dial starts a frame, then what the tap hands on between
two resets is a run of the dial's frames, and all of those that were delivered
whole from the boundary on.
-/

namespace MarketBenchmark.Tap

open Foundation
open Foundation.Endian
open Foundation.Framing
open Foundation.Panics
open Foundation.Streams
open Foundation.Transducers

/-! ## The frames of a stream -/

/-- The bytes of consecutive frames. -/
def spread (frames : List Frame) : Nat := (frames.flatMap Frame.bytes).length

theorem spread_append (first second : List Frame) :
    spread (first ++ second) = spread first + spread second := by
  unfold spread
  rw [List.flatMap_append, List.length_append]

/-- No frame is read, or the first one and those behind it. -/
theorem consumeFrames_case (buf : List UInt8) :
    (consumeFrames buf).1 = [] ∨ 5 + bigEndian buf ≤ buf.length ∧
      consumeFrames buf =
        ({ bytes := buf.take (5 + bigEndian buf) } ::
            (consumeFrames (buf.drop (5 + bigEndian buf))).1,
          (consumeFrames (buf.drop (5 + bigEndian buf))).2) := by
  by_cases short : buf.length < 5
  · rw [consumeFrames, if_pos short]
    exact Or.inl rfl
  by_cases large : maxFrameBody < bigEndian buf
  · rw [consumeFrames, if_neg short, if_pos large]
    exact Or.inl rfl
  by_cases part : buf.length < 5 + bigEndian buf
  · rw [consumeFrames, if_neg short, if_neg large, if_pos part]
    exact Or.inl rfl
  · refine Or.inr ⟨Nat.le_of_not_lt part, ?_⟩
    rw [consumeFrames, if_neg short, if_neg large, if_neg part]

/-- What is read behind some of the frames are the frames behind them. -/
theorem consumeFrames_drop {buf : List UInt8} {before after : List Frame}
    (read : (consumeFrames buf).1 = before ++ after) :
    consumeFrames (buf.drop (spread before)) = (after, (consumeFrames buf).2) := by
  induction before generalizing buf with
  | nil => exact Prod.ext read rfl
  | cons frame before ih =>
      have whole := consumeFrames_case buf
      rcases whole with none | ⟨length, same⟩
      · rw [none] at read
        cases read
      · rw [same] at read ⊢
        obtain ⟨rfl, later⟩ := List.cons.inj read
        have behind : spread ({ bytes := buf.take (5 + bigEndian buf) } :: before) =
            5 + bigEndian buf + spread before := by
          unfold spread
          rw [List.flatMap_cons, List.length_append, List.length_take_of_le length]
        rw [behind, ← List.drop_drop]
        exact ih later

/-- A frame that is oversize is not all that is left. -/
theorem spread_lt_of_desync {buf : List UInt8} (desync : (consumeFrames buf).2 = none) :
    spread (consumeFrames buf).1 < buf.length := by
  induction buf using consumeFrames.induct with
  | case1 buf short =>
      rw [consumeFrames, if_pos short] at desync
      cases desync
  | case2 buf long large =>
      rw [consumeFrames, if_neg long, if_pos large]
      exact Nat.lt_of_lt_of_le (by decide) (Nat.le_of_not_lt long)
  | case3 buf long small part =>
      rw [consumeFrames, if_neg long, if_neg small, if_pos part] at desync
      cases desync
  | case4 buf long small whole ih =>
      rw [consumeFrames, if_neg long, if_neg small, if_neg whole] at desync ⊢
      have later := ih desync
      rw [List.length_drop] at later
      unfold spread at later ⊢
      rw [List.flatMap_cons, List.length_append, List.length_take_of_le (Nat.le_of_not_lt whole)]
      omega

/-- More bytes are consumed with what was left. -/
theorem consumeFrames_longer {buf rest : List UInt8} {frames : List Frame}
    (consumed : consumeFrames buf = (frames, some rest)) (more : List UInt8) :
    consumeFrames (buf ++ more) =
      (frames ++ (consumeFrames (rest ++ more)).1, (consumeFrames (rest ++ more)).2) := by
  rcases consumeFrames_append buf more with ⟨desync, _⟩ | ⟨left, isLeft, _, split, longer⟩
  · rw [consumed] at desync
    cases desync
  · rw [consumed] at isLeft split longer
    cases isLeft
    have behind : (buf ++ more).drop (spread frames) = rest ++ more := by
      rw [split, List.append_assoc]
      exact List.drop_left
    have further := consumeFrames_drop longer
    rw [behind] at further
    exact Prod.ext longer (by rw [further])

/-- A part of the stream that starts where the stream starts a frame is read as the stream is. -/
theorem consumeFrames_part {stream part : List UInt8} {before after : List Frame}
    (read : (consumeFrames stream).1 = before ++ after)
    (occurs : OccursAt stream (spread before) part) :
    (consumeFrames part).1 <+: after ∧
      ((consumeFrames part).2 = none → (consumeFrames part).1 = after) := by
  obtain ⟨more, split⟩ := occurs
  have whole := consumeFrames_drop read
  rw [← split] at whole
  rcases consumeFrames_append part more with ⟨_, same⟩ | ⟨rest, left, _, _, frames⟩
  · rw [same] at whole
    rw [whole]
    exact ⟨List.prefix_refl _, fun _ => rfl⟩
  · rw [whole] at frames
    refine ⟨⟨_, frames.symm⟩, fun desync => ?_⟩
    rw [desync] at left
    cases left

/-! ## Spells of a flow -/

/-- The frames that a flow hands on from the data of one spell: none, or those that the stream
has there, read from a place at which it starts a frame. -/
def Spell (stream data : List UInt8) (run : List Frame) : Prop :=
  run = [] ∨ ∃ kept before after, kept <:+ data ∧ (consumeFrames stream).1 = before ++ after ∧
    OccursAt stream (spread before) kept ∧ run = (consumeFrames kept).1

/-- A spell hands on frames that a reader of the stream reads one after the other. -/
theorem Spell.isInfix {stream data : List UInt8} {run : List Frame}
    (spell : Spell stream data run) : run <:+: (consumeFrames stream).1 := by
  rcases spell with rfl | ⟨kept, before, after, _, read, occurs, rfl⟩
  · exact List.nil_infix
  · rw [read]
    exact (consumeFrames_part read occurs).1.isInfix.trans (List.suffix_append before after).isInfix

/-- Frames stand in a row only where a reader of the stream starts a frame. -/
def TrueChains (decompress : List UInt8 → Nat → Option (List UInt8)) (stream : List UInt8) :
    Prop :=
  ∀ offset, HoldsChain decompress (stream.drop offset) →
    ∃ before after, (consumeFrames stream).1 = before ++ after ∧ spread before = offset

variable {decompress : List UInt8 → Nat → Option (List UInt8)} {stream : List UInt8}

/-- A boundary that the flow trusts is one. -/
theorem TrueChains.boundary (true_ : TrueChains decompress stream) {offset start : Nat}
    {buf : List UInt8} (occurs : OccursAt stream offset buf)
    (found : findFrameBoundary decompress buf = some start) :
    start ≤ buf.length ∧ OccursAt stream (offset + start) (buf.drop start) ∧
      ∃ before after, (consumeFrames stream).1 = before ++ after ∧
        spread before = offset + start := by
  obtain ⟨⟨frames, chain, front⟩, _⟩ := findFrameBoundary_eq_some.mp found
  have within : start ≤ buf.length := by
    by_contra beyond
    rw [List.drop_eq_nil_of_le (Nat.le_of_not_le beyond)] at front
    have many := length_wire chain.wellFormed
    rw [List.prefix_nil.mp front, chain.length] at many
    exact absurd many (by decide)
  have here := occurs.drop within
  exact ⟨within, here, true_ _ ⟨frames, chain, front.trans here⟩⟩

/-- Where the reader of one spell is, with the data of the spell and the frames handed on. -/
inductive Reads (stream : List UInt8) (position : Option Nat) (flow : TapFlow)
    (data : List UInt8) : List Frame → Prop
  | searching (unsynced : flow.synced = false) (ends : EndsAt stream position flow.buf)
      (tail : flow.buf <:+ data) : Reads stream position flow data []
  | reading {kept : List UInt8} {before after run : List Frame} (synced : flow.synced = true)
      (tail : kept <:+ data) (read : (consumeFrames stream).1 = before ++ after)
      (occurs : OccursAt stream (spread before) kept)
      (consumed : consumeFrames kept = (run, some flow.buf))
      (located : position = some (spread before + kept.length)) :
      Reads stream position flow data run
  -- past a frame that is oversize for a dial, too
  | lost {kept : List UInt8} {before after run : List Frame} {offset : Nat}
      (unsynced : flow.synced = false)
      (tail : kept <:+ data) (read : (consumeFrames stream).1 = before ++ after)
      (occurs : OccursAt stream (spread before) kept) (consumed : consumeFrames kept = (run, none))
      (located : position = some (spread before + kept.length))
      (bufOccurs : OccursAt stream offset flow.buf) (ends : position = some (offset + flow.buf.length))
      (past : spread (consumeFrames stream).1 < offset) : Reads stream position flow data run

theorem Reads.spell {position : Option Nat} {flow : TapFlow} {data : List UInt8} {run : List Frame}
    (reads : Reads stream position flow data run) : Spell stream data run := by
  cases reads with
  | searching => exact Or.inl rfl
  | reading _ tail read occurs consumed =>
      exact Or.inr ⟨_, _, _, tail, read, occurs, by rw [consumed]⟩
  | lost _ tail read occurs consumed =>
      exact Or.inr ⟨_, _, _, tail, read, occurs, by rw [consumed]⟩

/-- Frames that are consumed from a boundary on. -/
theorem Reads.consume {position : Option Nat} {data kept buf : List UInt8}
    {before after run : List Frame} (flow : TapFlow) (tail : kept <:+ data)
    (read : (consumeFrames stream).1 = before ++ after)
    (occurs : OccursAt stream (spread before) kept)
    (located : position = some (spread before + kept.length))
    (whole : consumeFrames kept = (run ++ (consumeFrames buf).1, (consumeFrames buf).2)) :
    Reads stream position (flow.consume buf).1 data (run ++ (flow.consume buf).2) := by
  unfold TapFlow.consume
  cases consumed : consumeFrames buf with
  | mk frames left =>
      rw [consumed] at whole
      cases left with
      | some rest => exact .reading rfl tail read occurs whole located
      | none =>
          have all := (consumeFrames_part read occurs).2 (by rw [whole])
          have desync : (consumeFrames kept).2 = none := by rw [whole]
          have short := spread_lt_of_desync desync
          have sum := spread_append before after
          rw [← read, ← all] at sum
          have past : spread (consumeFrames stream).1 < spread before + kept.length := by
            rw [sum]
            exact Nat.add_lt_add_left short _
          exact .lost rfl tail read occurs whole located (occursAt_nil _) located past

/-- A flow that finds no boundary keeps a tail. -/
theorem deliver_of_none {flow : TapFlow} {data : List UInt8} (unsynced : flow.synced = false)
    (none : findFrameBoundary decompress (flow.buf ++ data) = none) (wallNs : Nat) :
    (flow.deliver decompress (.bytes data wallNs)).1.synced = false ∧
      (flow.deliver decompress (.bytes data wallNs)).1.buf <:+ flow.buf ++ data ∧
      (flow.deliver decompress (.bytes data wallNs)).2 = [] := by
  unfold TapFlow.deliver
  dsimp only
  rw [if_neg (by rw [unsynced]; exact Bool.false_ne_true), none]
  refine ⟨unsynced, ?_, rfl⟩
  dsimp only
  split
  · exact List.drop_suffix _ _
  · exact List.suffix_refl _

/-- A delivery of the next piece of the stream. -/
theorem Reads.deliver (chains : TrueChains decompress stream) {offset : Nat} {flow : TapFlow}
    {data piece : List UInt8} {run : List Frame}
    (reads : Reads stream (some offset) flow data run) (occurs : OccursAt stream offset piece)
    (wallNs : Nat) :
    Reads stream (some (offset + piece.length)) (flow.deliver decompress (.bytes piece wallNs)).1
      (data ++ piece) (run ++ (flow.deliver decompress (.bytes piece wallNs)).2) := by
  cases reads with
  | searching unsynced ends tail =>
      have grown := ends.append occurs
      have longer : flow.buf ++ piece <:+ data ++ piece := by
        obtain ⟨front, same⟩ := tail
        exact ⟨front, by rw [← same, List.append_assoc]⟩
      cases found : findFrameBoundary decompress (flow.buf ++ piece) with
      | none =>
          obtain ⟨still, suffix, nothing⟩ := deliver_of_none unsynced found wallNs
          rw [nothing]
          refine .searching still ?_ (suffix.trans longer)
          rw [List.suffix_iff_eq_drop.mp suffix]
          exact grown.drop _
      | some start =>
          have synchronises : flow.deliver decompress (.bytes piece wallNs) =
              flow.consume ((flow.buf ++ piece).drop start) := by
            unfold TapFlow.deliver
            dsimp only
            rw [if_neg (by rw [unsynced]; exact Bool.false_ne_true), found]
          rw [synchronises]
          rcases grown with empty | ⟨bufOffset, bufOccurs, located⟩
          · rw [empty] at found
            cases found
          · obtain ⟨within, here, before, after, read, same⟩ := chains.boundary bufOccurs found
            refine .consume flow ((List.drop_suffix start _).trans longer) read (same ▸ here) ?_ rfl
            rw [located, same, List.length_drop]
            congr 1
            omega
  | @reading kept before after _ synced tail read keptOccurs consumed located =>
      have consumes : flow.deliver decompress (.bytes piece wallNs) =
          flow.consume (flow.buf ++ piece) := if_pos synced
      have same := Option.some.inj located
      have longer : kept ++ piece <:+ data ++ piece := by
        obtain ⟨front, whole⟩ := tail
        exact ⟨front, by rw [← whole, List.append_assoc]⟩
      rw [consumes]
      refine .consume flow longer read (occursAt_append.mpr ⟨keptOccurs, same ▸ occurs⟩) ?_ ?_
      · rw [same, List.length_append, Nat.add_assoc]
      · exact consumeFrames_longer consumed piece
  | @lost kept before after _ bufOffset unsynced tail read keptOccurs consumed located bufOccurs
      ends past =>
      have same := Option.some.inj located
      have bufEnds := Option.some.inj ends
      have grown : OccursAt stream bufOffset (flow.buf ++ piece) :=
        occursAt_append.mpr ⟨bufOccurs, bufEnds ▸ occurs⟩
      have longer : kept ++ piece <:+ data ++ piece := by
        obtain ⟨front, whole⟩ := tail
        exact ⟨front, by rw [← whole, List.append_assoc]⟩
      cases found : findFrameBoundary decompress (flow.buf ++ piece) with
      | some start =>
          -- a dial has no boundary behind the frame at which it stops
          obtain ⟨_, _, first, last, split, bound⟩ := chains.boundary grown found
          have sum := spread_append first last
          rw [← split] at sum
          omega
      | none =>
          obtain ⟨still, suffix, nothing⟩ := deliver_of_none unsynced found wallNs
          have desync : (consumeFrames kept).2 = none := by rw [consumed]
          have unchanged : consumeFrames (kept ++ piece) = (run, none) := by
            rcases consumeFrames_append kept piece with ⟨_, whole⟩ | ⟨_, left, _⟩
            · exact whole.trans consumed
            · rw [desync] at left
              cases left
          obtain ⟨front, split⟩ := suffix
          rw [← split] at grown
          have length := congrArg List.length split
          rw [List.length_append, List.length_append] at length
          rw [nothing, List.append_nil]
          refine .lost still longer read (occursAt_append.mpr ⟨keptOccurs, same ▸ occurs⟩)
            unchanged ?_ (occursAt_append.mp grown).2 ?_ (Nat.lt_add_right _ past)
          · rw [same, List.length_append, Nat.add_assoc]
          · rw [bufEnds, Nat.add_assoc, ← length, Nat.add_assoc]

/-- The deliveries of a reader that is in step with the stream, spell by spell. -/
theorem Reads.feed (chains : TrueChains decompress stream) {out : List Delivery}
    {position final : Option Nat} {flow : TapFlow} {data : List UInt8} {run : List Frame}
    (inStep : InStep stream position (out.map Delivery.chunk) final)
    (reads : Reads stream position flow data run) :
    ∃ runs, run ++ (feed (TapFlow.deliver decompress) flow out).2 = runs.flatten ∧
      List.Forall₂ (Spell stream) (spells data (out.map Delivery.chunk)) runs := by
  generalize chunks : out.map Delivery.chunk = read at inStep
  induction inStep generalizing out flow data run with
  | done =>
      rw [List.map_eq_nil_iff.mp chunks]
      exact ⟨[run], by simp, .cons reads.spell .nil⟩
  | join offset _ ih =>
      refine ih ?_ chunks
      cases reads with
      | searching unsynced ends tail =>
          exact .searching unsynced (TapFlow.endsAt_joined offset ends) tail
      | reading _ _ _ _ _ located => cases located
      | lost _ _ _ _ _ located => cases located
  | piece occurs _ ih =>
      obtain ⟨delivery, rest, rfl, here, later⟩ := List.map_eq_cons_iff.mp chunks
      cases delivery with
      | reset reason => cases here
      | bytes piece wallNs =>
          cases here
          obtain ⟨runs, handed, forall_⟩ := ih (reads.deliver chains occurs wallNs) later
          refine ⟨runs, ?_, forall_⟩
          rw [feed_cons, ← List.append_assoc]
          exact handed
  | restart _ ih =>
      obtain ⟨delivery, rest, rfl, here, later⟩ := List.map_eq_cons_iff.mp chunks
      cases delivery with
      | bytes piece wallNs => cases here
      | reset reason =>
          have fresh : ∀ resumed, Reads stream resumed flow.resynchronise [] [] := fun _ =>
            .searching rfl (Or.inl rfl) (List.suffix_refl [])
          obtain ⟨runs, handed, forall_⟩ := ih (fresh _) later
          refine ⟨run :: runs, ?_, .cons reads.spell forall_⟩
          rw [feed_cons, List.flatten_cons]
          exact congrArg (run ++ ·) handed

/-! ## Calls -/

theorem deliver_withReassembler (flow : TapFlow) (r : Reassembler) (delivery : Delivery) :
    ({ flow with reassembler := r } : TapFlow).deliver decompress delivery =
      ({ (flow.deliver decompress delivery).1 with reassembler := r },
        (flow.deliver decompress delivery).2) := by
  have consumed : ∀ buf, ({ flow with reassembler := r } : TapFlow).consume buf =
      ({ (flow.consume buf).1 with reassembler := r }, (flow.consume buf).2) := by
    intro buf
    unfold TapFlow.consume
    split <;> rfl
  cases delivery with
  | reset reason => rfl
  | bytes data wallNs =>
      unfold TapFlow.deliver
      dsimp only
      split
      · exact consumed _
      · split
        · exact consumed _
        · rfl

/-- What a flow hands on does not depend on its reassembler. -/
theorem feed_withReassembler (flow : TapFlow) (r : Reassembler) (out : List Delivery) :
    feed (TapFlow.deliver decompress) { flow with reassembler := r } out =
      ({ (feed (TapFlow.deliver decompress) flow out).1 with reassembler := r },
        (feed (TapFlow.deliver decompress) flow out).2) := by
  induction out generalizing flow with
  | nil => rfl
  | cons delivery rest ih =>
      rw [feed_cons, feed_cons, deliver_withReassembler]
      dsimp only
      rw [ih]

/-- The calls of a flow are the deliveries of its reassembler. -/
theorem feed_calls (flow : TapFlow) (calls : List TapCall) :
    (feed (TapFlow.call decompress) flow calls).2 =
      (feed (TapFlow.deliver decompress) flow
        (feed Reassembler.call flow.reassembler calls).2).2 := by
  induction calls generalizing flow with
  | nil => rfl
  | cons tapCall rest ih =>
      have called : flow.call decompress tapCall =
          ({ (feed (TapFlow.deliver decompress) flow (flow.reassembler.call tapCall).2).1 with
              reassembler := (flow.reassembler.call tapCall).1 },
            (feed (TapFlow.deliver decompress) flow (flow.reassembler.call tapCall).2).2) :=
        feed_withReassembler flow _ _
      rw [feed_cons, feed_cons, feed_append, ih, called]
      exact congrArg (_ ++ Prod.snd ·) (feed_withReassembler _ _ _)

/-! ## Dials -/

/-- A decompressor of slices on the bytes that a slice holds. -/
def onBytes (decompress : Slice → Nat → Option Slice) (block : List UInt8) (size : Nat) :
    Option (List UInt8) :=
  if short : block.length ≤ isizeMax then
    (decompress { bytes := block, short := short } size).map Slice.bytes
  else none

theorem onBytes_bytes (decompress : Slice → Nat → Option Slice) (block : Slice) (size : Nat) :
    onBytes decompress block.bytes size = (decompress block size).map Slice.bytes :=
  dif_pos block.short

theorem littleEndian_eq (bytes : List UInt8) : littleEndian bytes = fromLe (bytes.take 4) := by
  unfold littleEndian
  generalize bytes.take 4 = header
  induction header with
  | nil => rfl
  | cons byte rest ih => rw [List.foldr_cons, ih, fromLe]

theorem decompressDataFrame_onBytes (decompress : Slice → Nat → Option Slice) (body : Slice) :
    decompressDataFrame (onBytes decompress) body.bytes =
      (Peering.dataPayload decompress body).map Slice.bytes := by
  have front : (body.cut 0 4).bytes = body.bytes.take 4 := List.drop_zero
  have behind : (body.cut 4 body.length).bytes = body.bytes.drop 4 := by
    unfold Slice.cut Slice.length
    dsimp only
    rw [List.take_length]
  unfold decompressDataFrame Peering.dataPayload
  dsimp only
  rw [littleEndian_eq, ← front, ← behind, onBytes_bytes,
    apply_ite (Option.map Slice.bytes), apply_ite (Option.map Slice.bytes)]
  rfl

/-- A frame of a tap and the same frame of a dial have the same payload. -/
theorem payload_eq (decompress : Slice → Nat → Option Slice) {frame : Frame}
    {other : Peering.Frame} (kind : frame.bytes.getD 4 0 = other.kind)
    (body : frame.bytes.drop 5 = other.body.bytes) :
    frame.payload (onBytes decompress) = (other.payload decompress).map Slice.bytes := by
  unfold Frame.payload Peering.Frame.payload
  dsimp only
  rw [kind, body, decompressDataFrame_onBytes]
  split
  · rfl
  · split <;> rfl

theorem exists_header {buf : List UInt8} (long : ¬buf.length < 5) :
    ∃ first second third fourth kind rest,
      buf = first :: second :: third :: fourth :: kind :: rest ∧
        bigEndian buf = fromBe [first, second, third, fourth] := by
  match buf with
  | [] | [_] | [_, _] | [_, _, _] | [_, _, _, _] => exact absurd (by simp) long
  | first :: second :: third :: fourth :: kind :: rest =>
      exact ⟨_, _, _, _, _, _, rfl, bigEndian_eq _⟩

/-- Consuming a buffer hands on the payloads that the framer of a dial finds in it. -/
theorem payloads_consumeFrames (decompress : Slice → Nat → Option Slice) (position : Nat)
    (buf : List UInt8) :
    (consumeFrames buf).1.filterMap (Frame.payload (onBytes decompress)) =
      (Peering.handed decompress (Peering.framing.drain position buf).frames).map
        fun entry => entry.2.bytes := by
  induction buf using consumeFrames.induct generalizing position with
  | case1 buf short =>
      rw [consumeFrames, if_pos short, Framer.drain_wait (Peering.nextFrame_short short)]
      rfl
  | case2 buf long large =>
      obtain ⟨first, second, third, fourth, kind, rest, rfl, header⟩ := exists_header long
      rw [consumeFrames, if_neg long, if_pos large]
      rw [header] at large
      rcases Peering.nextFrame_cons first second third fourth kind rest with
        ⟨_, stops⟩ | ⟨small, _⟩ | ⟨small, _⟩
      · rw [Framer.drain_stop stops]
        rfl
      · exact absurd large small
      · exact absurd large small
  | case3 buf long small part =>
      obtain ⟨first, second, third, fourth, kind, rest, rfl, header⟩ := exists_header long
      rw [consumeFrames, if_neg long, if_neg small, if_pos part]
      rw [header] at small part
      simp only [List.length_cons] at part
      rcases Peering.nextFrame_cons first second third fourth kind rest with
        ⟨large, _⟩ | ⟨_, _, waits⟩ | ⟨_, whole, _⟩
      · exact absurd large small
      · rw [Framer.drain_wait waits]
        rfl
      · omega
  | case4 buf long small whole ih =>
      obtain ⟨first, second, third, fourth, kind, rest, rfl, header⟩ := exists_header long
      rw [consumeFrames, if_neg long, if_neg small, if_neg whole]
      rw [header] at small whole ih ⊢
      simp only [List.length_cons] at whole
      rcases Peering.nextFrame_cons first second third fourth kind rest with
        ⟨large, _⟩ | ⟨_, short, _⟩ | ⟨_, _, frame, sameKind, body, takes⟩
      · exact absurd large small
      · omega
      · generalize length : fromBe [first, second, third, fourth] = bodyLen at *
        have taken : (first :: second :: third :: fourth :: kind :: rest).take (5 + bodyLen) =
            first :: second :: third :: fourth :: kind :: rest.take bodyLen := by
          rw [Nat.add_comm]
          rfl
        have same : Frame.payload (onBytes decompress)
            { bytes := first :: second :: third :: fourth :: kind :: rest.take bodyLen } =
              (frame.payload decompress).map Slice.bytes :=
          payload_eq decompress sameKind.symm body.symm
        have further := ih (position + (5 + bodyLen))
        rw [Framer.drain_take takes, taken]
        unfold Peering.handed at further ⊢
        rw [List.filterMap_cons, List.filterMap_cons, same]
        dsimp only
        cases frame.payload decompress with
        | none => exact further
        | some payload => exact congrArg (payload.bytes :: ·) further

/-- The payloads that a dial of the stream hands on, read by read. -/
def dialedPayloads (decompress : Slice → Nat → Option Slice) (reads : List Peering.Read) :
    List (List UInt8) :=
  (Peering.handed decompress
    ((Peering.framing.feed 0 [] (Peering.pieces reads)).frames.map Prod.fst)).map
      fun entry => entry.2.bytes

/-- However a dial's reads cut the stream, they hand on the payloads of its frames. -/
theorem dialedPayloads_eq (decompress : Slice → Nat → Option Slice) {reads : List Peering.Read}
    (cut : (reads.map fun read => read.chunk.bytes).flatten = stream) :
    dialedPayloads decompress reads =
      (consumeFrames stream).1.filterMap (Frame.payload (onBytes decompress)) := by
  have bytes : ((Peering.pieces reads).map Prod.fst).flatten = stream := by
    rw [← cut, Peering.pieces, List.map_map]
    rfl
  obtain ⟨frames, _⟩ :=
    Framer.feed_eq_drain Peering.framing.wait_nil 0 (Peering.pieces reads)
  rw [List.nil_append, bytes] at frames
  rw [payloads_consumeFrames decompress 0 stream, dialedPayloads, frames]

/--
Whatever the segments of a connection suffer, what a tap hands on falls into one
run of frames for each spell between two resets: none, or those that a dial of
the connection reads from one of its own boundaries on, as far as the data of
the spell goes.  Their payloads are a run of the dial's, however its reads cut
the stream.
-/
theorem tap_hands_on_dialed_runs (decompress : Slice → Nat → Option Slice) {c : Connection}
    {calls : List TapCall} (tapped : c.Tapped .default none calls)
    (chains : TrueChains (onBytes decompress) c.sent) {reads : List Peering.Read}
    (cut : (reads.map fun read => read.chunk.bytes).flatten = c.sent) :
    ∃ runs, (feed (TapFlow.call (onBytes decompress)) .default calls).2 = runs.flatten ∧
      List.Forall₂ (fun data run => Spell c.sent data run ∧
          run.filterMap (Frame.payload (onBytes decompress)) <:+: dialedPayloads decompress reads)
        (spells [] ((feed Reassembler.call .default calls).2.map Delivery.chunk)) runs := by
  obtain ⟨final, inStep⟩ := tapped.inStep rfl
  have fresh : Reads c.sent none .default [] [] :=
    .searching rfl (Or.inl rfl) (List.suffix_refl [])
  obtain ⟨runs, handed, forall_⟩ := Reads.feed chains inStep fresh
  refine ⟨runs, ?_, forall_.imp fun data run spell => ⟨spell, ?_⟩⟩
  · rw [feed_calls]
    exact handed
  · rw [dialedPayloads_eq decompress cut]
    exact spell.isInfix.filterMap _

/-! ## A connection joined in a frame -/

/-- Every block is its own payload. -/
def plainBlock (block : Slice) (_ : Nat) : Option Slice := some block

/-- The stream of the sample has six data frames. -/
def framedConnection : Connection where
  sent := wire (List.replicate 6 dataFrame)
  isn := BitVec.ofNat 32 (2 ^ 32 - 2)

/-- The tap sees the stream from inside its first frame on. -/
def joinedCalls : List TapCall :=
  [.push
    { dstPort := 50123
      seq := framedConnection.seqAt 3
      flags := 0x18
      payload := framedConnection.sent.drop 3
      wallNs := 0 } 0 0]

theorem joinedCalls_tapped : framedConnection.Tapped .default none joinedCalls :=
  .push 3 ⟨by decide +kernel, by decide +kernel, by decide +kernel, fun _ _ => rfl⟩
    (by decide +kernel) .done

theorem framedConnection_chains : TrueChains (onBytes plainBlock) framedConnection.sent := by
  have frames : (consumeFrames framedConnection.sent).1 =
      List.replicate 6 dataFrame.frame := by decide +kernel
  have checked : ∀ offset < 66, framesStart (onBytes plainBlock) resyncFrames
      (framedConnection.sent.drop offset) false = true → ∃ count ≤ 6,
        spread ((List.replicate 6 dataFrame.frame).take count) = offset := by decide +kernel
  intro offset chain
  rw [frames]
  by_cases within : offset < 66
  · obtain ⟨count, _, same⟩ := checked offset within (holdsChain_iff.mp chain)
    exact ⟨_, _, (List.take_append_drop count _).symm, same⟩
  · obtain ⟨inRow, isChain, front⟩ := chain
    have length : framedConnection.sent.length = 66 := by decide +kernel
    rw [List.drop_eq_nil_of_le (length ▸ Nat.le_of_not_lt within)] at front
    have many := length_wire isChain.wellFormed
    rw [List.prefix_nil.mp front, isChain.length] at many
    exact absurd many (by decide)

/-- A dial reads the stream in two pieces. -/
def dialReads : List Peering.Read :=
  [ { chunk := { bytes := framedConnection.sent.take 30, short := by decide +kernel }
      fits := by decide +kernel
      since := id
      arrival := 1
      wallMs := 1
      now := fun _ => 1 },
    { chunk := { bytes := framedConnection.sent.drop 30, short := by decide +kernel }
      fits := by decide +kernel
      since := id
      arrival := 2
      wallMs := 2
      now := fun _ => 2 } ]

/-- The five frames behind the one that was joined are a run of those that the dial reads. -/
theorem tap_hands_on_dialed_runs_joined :
    ∃ run : List Frame, (feed (TapFlow.call (onBytes plainBlock)) .default joinedCalls).2 = run ∧
      run.length = 5 ∧
      run.filterMap (Frame.payload (onBytes plainBlock)) <:+:
        dialedPayloads plainBlock dialReads := by
  have handed : (feed (TapFlow.call (onBytes plainBlock)) .default joinedCalls).2.length = 5 := by
    decide +kernel
  have oneSpell : (spells [] ((feed Reassembler.call .default joinedCalls).2.map
      Delivery.chunk)).length = 1 := by decide +kernel
  have cut : (dialReads.map fun read => read.chunk.bytes).flatten = framedConnection.sent := by
    decide +kernel
  obtain ⟨runs, same, forall_⟩ :=
    tap_hands_on_dialed_runs plainBlock joinedCalls_tapped framedConnection_chains cut
  generalize spells [] _ = data at forall_ oneSpell
  obtain ⟨spell, rfl⟩ := List.length_eq_one_iff.mp oneSpell
  cases forall_ with
  | cons both rest =>
      cases rest
      rw [same, List.flatten_singleton] at handed
      exact ⟨_, same.trans List.flatten_singleton, handed, both.2⟩

end MarketBenchmark.Tap
