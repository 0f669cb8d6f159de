import MarketBenchmark.Tap.Flow
import MarketBenchmark.Foundation.Endian
import MarketBenchmark.Foundation.Streams

/-!
# Finding a frame boundary

A frame as its sender writes it, and what the reader takes for a boundary: the
least offset at which enough well-formed frames stand in a row, a data frame
that decompresses among them.  Whatever stands at that offset by accident, the
frames that make it a boundary are consumed.
-/

namespace MarketBenchmark.Tap

open Foundation.Endian
open Foundation.Streams

variable (decompress : List UInt8 → Nat → Option (List UInt8))

/-! ## Frames on the wire -/

structure WireFrame where
  kind : UInt8
  body : List UInt8
  deriving DecidableEq, Repr

namespace WireFrame

def bytes (frame : WireFrame) : List UInt8 :=
  toBe 4 frame.body.length ++ frame.kind :: frame.body

/-- Of kind 0 or 1, of a size that the reader accepts, and if it is a data frame, one that
decompresses. -/
structure WellFormed (frame : WireFrame) : Prop where
  kind : frame.kind ≤ 1
  nonempty : 0 < frame.body.length
  small : frame.body.length ≤ maxFrameBody
  decodes : frame.kind = 1 → (decompressDataFrame decompress frame.body).isSome

variable {decompress} {frame : WireFrame}

theorem length_bytes (frame : WireFrame) : frame.bytes.length = 5 + frame.body.length := by
  simp [bytes, length_toBe]
  omega

end WireFrame

def wire (frames : List WireFrame) : List UInt8 := frames.flatMap WireFrame.bytes

@[simp]
theorem wire_nil : wire [] = [] := rfl

@[simp]
theorem wire_cons (frame : WireFrame) (rest : List WireFrame) :
    wire (frame :: rest) = frame.bytes ++ wire rest := rfl

@[simp]
theorem wire_append (first second : List WireFrame) :
    wire (first ++ second) = wire first ++ wire second := List.flatMap_append

/-- Enough frames in a row to trust where they start. -/
structure Chain (frames : List WireFrame) : Prop where
  length : frames.length = resyncFrames
  wellFormed : ∀ frame ∈ frames, frame.WellFormed decompress
  data : ∃ frame ∈ frames, frame.kind = 1

/-- The buffer starts with a chain. -/
def HoldsChain (buf : List UInt8) : Prop := ∃ frames, Chain decompress frames ∧ wire frames <+: buf

/-! ## Headers -/

theorem bigEndian_eq (bytes : List UInt8) : bigEndian bytes = fromBe (bytes.take 4) := by
  unfold bigEndian fromBe
  generalize bytes.take 4 = header
  induction header using List.reverseRecOn with
  | nil => rfl
  | append_singleton front byte ih =>
      rw [List.foldl_append, ih, List.reverse_append]
      simp [fromLe]
      omega

variable {decompress}

theorem bigEndian_bytes {frame : WireFrame} (small : frame.body.length ≤ maxFrameBody)
    (rest : List UInt8) : bigEndian (frame.bytes ++ rest) = frame.body.length := by
  have fits : frame.body.length < 256 ^ 4 := Nat.lt_of_le_of_lt small (by decide)
  have header : (frame.bytes ++ rest).take 4 = toBe 4 frame.body.length := by
    rw [WireFrame.bytes, List.append_assoc]
    exact List.take_left' (length_toBe 4 _)
  rw [bigEndian_eq, header, fromBe_toBe fits]

theorem kind_bytes (frame : WireFrame) (rest : List UInt8) :
    (frame.bytes ++ rest).getD 4 0 = frame.kind := by
  have header := length_toBe 4 frame.body.length
  rw [WireFrame.bytes, List.append_assoc, List.getD_append_right _ _ _ _ header.le, header]
  rfl

theorem body_bytes (frame : WireFrame) (rest : List UInt8) :
    ((frame.bytes ++ rest).take (5 + frame.body.length)).drop 5 = frame.body := by
  rw [← frame.length_bytes, List.take_left, WireFrame.bytes, List.append_cons]
  refine List.drop_left' ?_
  rw [List.length_append, length_toBe]
  rfl

/-- A buffer that is as long as its header tells starts with a frame. -/
theorem exists_frame {buf : List UInt8} (whole : 5 + bigEndian buf ≤ buf.length) :
    ∃ (frame : WireFrame) (rest : List UInt8), frame.body.length = bigEndian buf ∧
      buf = frame.bytes ++ rest := by
  match buf with
  | [] | [_] | [_, _] | [_, _, _] | [_, _, _, _] =>
      simp only [List.length_cons, List.length_nil] at whole
      omega
  | first :: second :: third :: fourth :: kind :: rest =>
      have header : bigEndian (first :: second :: third :: fourth :: kind :: rest) =
          fromBe [first, second, third, fourth] := bigEndian_eq _
      rw [header] at whole ⊢
      generalize length : fromBe [first, second, third, fourth] = size at whole ⊢
      simp only [List.length_cons] at whole
      have taken : (rest.take size).length = size := List.length_take_of_le (by omega)
      refine ⟨{ kind := kind, body := rest.take size }, rest.drop size, taken, ?_⟩
      have encoded : toBe 4 size = [first, second, third, fourth] := by
        rw [← length]
        exact toBe_fromBe [first, second, third, fourth]
      rw [WireFrame.bytes, taken, encoded]
      simp

/-! ## The test of an offset -/

theorem framesStart_frame {frame : WireFrame} (wellFormed : frame.WellFormed decompress)
    (count : Nat) (rest : List UInt8) (decoded : Bool) :
    framesStart decompress (count + 1) (frame.bytes ++ rest) decoded =
      framesStart decompress count rest (decoded || frame.kind == 1) := by
  have length := frame.length_bytes
  conv_lhs => unfold framesStart
  rw [bigEndian_bytes wellFormed.small, kind_bytes]
  dsimp only
  have bounds : ¬(frame.body.length = 0 ∨ maxFrameBody < frame.body.length ∨ 1 < frame.kind) := by
    rintro (empty | large | other)
    · exact wellFormed.nonempty.ne' empty
    · exact Nat.not_lt.mpr wellFormed.small large
    · exact UInt8.not_lt.mpr wellFormed.kind other
  have dropped : (frame.bytes ++ rest).drop (5 + frame.body.length) = rest := by
    rw [← length, List.drop_left]
  rw [if_neg (by rw [List.length_append]; omega), if_neg bounds,
    if_neg (by rw [List.length_append]; omega), body_bytes, dropped]
  by_cases data : frame.kind = 1
  · have decodes := wellFormed.decodes data
    rw [if_pos data, if_neg (by simp [Option.isSome_iff_ne_none.mp decodes]), data]
    simp
  · rw [if_neg data, beq_eq_false_iff_ne.mpr data, Bool.or_false]

/-- Where a frame starts for the test, there is a well-formed one. -/
theorem frame_of_framesStart {count : Nat} {buf : List UInt8} {decoded : Bool}
    (starts : framesStart decompress (count + 1) buf decoded = true) :
    ∃ frame rest, WireFrame.WellFormed decompress frame ∧ buf = frame.bytes ++ rest := by
  unfold framesStart at starts
  split at starts
  · cases starts
  dsimp only at starts
  split at starts
  · cases starts
  next bounds =>
    split at starts
    · cases starts
    next whole =>
      obtain ⟨frame, rest, length, rfl⟩ := exists_frame (Nat.le_of_not_lt whole)
      rw [kind_bytes, ← length] at starts bounds
      refine ⟨frame, rest, ⟨?_, by omega, by omega, fun data => ?_⟩, rfl⟩
      · exact UInt8.not_lt.mp fun large => bounds (Or.inr (Or.inr large))
      · rw [body_bytes, if_pos data] at starts
        split at starts
        · cases starts
        next decodes => exact Option.isSome_iff_ne_none.mpr fun none => decodes (by rw [none]; rfl)

/-- The test of an offset looks for well-formed frames in a row, one of them a data frame. -/
theorem framesStart_iff {count : Nat} {buf : List UInt8} {decoded : Bool} :
    framesStart decompress count buf decoded = true ↔
      ∃ frames : List WireFrame, frames.length = count ∧
        (∀ frame ∈ frames, frame.WellFormed decompress) ∧
        (decoded = true ∨ ∃ frame ∈ frames, frame.kind = 1) ∧ wire frames <+: buf := by
  induction count generalizing buf decoded with
  | zero =>
      constructor
      · intro starts
        exact ⟨[], rfl, by simp, Or.inl starts, List.nil_prefix⟩
      · rintro ⟨frames, length, _, either, _⟩
        rw [List.length_eq_zero_iff.mp length] at either
        simpa [framesStart] using either
  | succ count ih =>
      constructor
      · intro starts
        obtain ⟨frame, rest, wellFormed, rfl⟩ := frame_of_framesStart starts
        rw [framesStart_frame wellFormed] at starts
        obtain ⟨frames, length, all, either, prefixed⟩ := ih.mp starts
        refine ⟨frame :: frames, by simp [length], by simpa using ⟨wellFormed, all⟩, ?_, ?_⟩
        · simpa [or_assoc] using either
        · exact (List.prefix_append_right_inj _).mpr prefixed
      · rintro ⟨frames, length, all, either, rest, rfl⟩
        obtain ⟨frame, frames, rfl⟩ := List.exists_cons_of_length_eq_add_one length
        obtain ⟨wellFormed, all⟩ := List.forall_mem_cons.mp all
        rw [wire_cons, List.append_assoc, framesStart_frame wellFormed, ih]
        refine ⟨frames, by simpa using length, all, ?_, List.prefix_append _ _⟩
        simpa [or_assoc] using either

theorem holdsChain_iff {buf : List UInt8} :
    HoldsChain decompress buf ↔ framesStart decompress resyncFrames buf false = true := by
  rw [framesStart_iff]
  constructor
  · rintro ⟨frames, chain, prefixed⟩
    exact ⟨frames, chain.length, chain.wellFormed, Or.inr chain.data, prefixed⟩
  · rintro ⟨frames, length, wellFormed, either, prefixed⟩
    exact ⟨frames, ⟨length, wellFormed, either.resolve_left Bool.false_ne_true⟩, prefixed⟩

instance (buf : List UInt8) : Decidable (HoldsChain decompress buf) :=
  decidable_of_iff _ holdsChain_iff.symm

/-- Every frame of a chain has a header and a byte. -/
theorem length_wire {frames : List WireFrame}
    (wellFormed : ∀ frame ∈ frames, frame.WellFormed decompress) :
    6 * frames.length ≤ (wire frames).length := by
  induction frames with
  | nil => simp
  | cons frame rest ih =>
      obtain ⟨first, later⟩ := List.forall_mem_cons.mp wellFormed
      have positive := first.nonempty
      have shorter := ih later
      rw [wire_cons, List.length_append, frame.length_bytes, List.length_cons]
      omega

/-- The offset that the reader trusts is the first with a chain. -/
theorem findFrameBoundary_eq_some {buf : List UInt8} {start : Nat} :
    findFrameBoundary decompress buf = some start ↔
      HoldsChain decompress (buf.drop start) ∧
        ∀ earlier < start, ¬HoldsChain decompress (buf.drop earlier) := by
  unfold findFrameBoundary
  rw [List.find?_range_eq_some]
  constructor
  · rintro ⟨starts, _, before⟩
    refine ⟨holdsChain_iff.mpr starts, fun earlier less chain => ?_⟩
    simpa [holdsChain_iff.mp chain] using before earlier less
  · rintro ⟨chain, before⟩
    have long : start + 24 ≤ buf.length := by
      obtain ⟨frames, inRow, prefixed⟩ := chain
      have many := length_wire inRow.wellFormed
      have within := prefixed.length_le
      rw [inRow.length] at many
      rw [List.length_drop] at within
      unfold resyncFrames at many
      omega
    refine ⟨holdsChain_iff.mp chain, List.mem_range.mpr (by omega), fun earlier less => ?_⟩
    have noChain := before earlier less
    rw [holdsChain_iff] at noChain
    simpa using noChain

theorem findFrameBoundary_isSome {buf : List UInt8} :
    (findFrameBoundary decompress buf).isSome ↔
      ∃ start, HoldsChain decompress (buf.drop start) := by
  constructor
  · intro found
    obtain ⟨start, same⟩ := Option.isSome_iff_exists.mp found
    exact ⟨start, (findFrameBoundary_eq_some.mp same).1⟩
  · intro exists_chain
    have least := findFrameBoundary_eq_some.mpr
      ⟨Nat.find_spec exists_chain, fun earlier less => Nat.find_min exists_chain less⟩
    rw [least]
    rfl

/-! ## Consuming frames -/

/-- A frame as the reader keeps it. -/
def WireFrame.frame (frame : WireFrame) : Frame where
  bytes := frame.bytes

/-- Frames that the reader accepts are consumed, and only what stands behind them decides how it
goes on. -/
theorem consumeFrames_wire {frames : List WireFrame}
    (small : ∀ frame ∈ frames, frame.body.length ≤ maxFrameBody) (rest : List UInt8) :
    consumeFrames (wire frames ++ rest) =
      (frames.map WireFrame.frame ++ (consumeFrames rest).1, (consumeFrames rest).2) := by
  induction frames with
  | nil => rfl
  | cons frame frames ih =>
      obtain ⟨first, later⟩ := List.forall_mem_cons.mp small
      have length := frame.length_bytes
      rw [wire_cons, List.append_assoc, consumeFrames, bigEndian_bytes first,
        if_neg (by rw [List.length_append]; omega), if_neg (Nat.not_lt.mpr first),
        if_neg (by rw [List.length_append]; omega), ← length, List.drop_left, List.take_left,
        ih later]
      rfl

end MarketBenchmark.Tap
