import MarketBenchmark.Tap.Resync

/-!
# The receive times of tapped payloads

Every payload that a delivery releases is stamped with the time of the
delivery.  That is the time at which its frame was complete as long as nothing
whole waits in the buffer, which holds of a synchronised flow; a flow that
synchronises may release frames that were complete before.  The flow is traced
with the receive time of every byte of its buffer, which no transition reads.
-/

namespace MarketBenchmark.Tap

open Foundation.Transducers

variable (decompress : List UInt8 → Nat → Option (List UInt8))

/-! ## Payloads -/

/-- What `consume_frames` hands to `track_payload`. -/
def Frame.payload (frame : Frame) : Option (List UInt8) :=
  let kind := frame.bytes.getD 4 0
  let body := frame.bytes.drop 5
  if kind = 1 then decompressDataFrame decompress body
  else if kind = 0 ∧ body.head? = some 1 then some body
  else none

/-- A payload with its stamp, and the time of the delivery with the last byte of its frame. -/
structure Stamped where
  payload : List UInt8
  wallMs : Nat
  completed : Option Nat
  deriving DecidableEq

/-- The payloads of consecutive frames, whose bytes came at these times. -/
def stamp (wallMs : Nat) : List Nat → List Frame → List Stamped
  | _, [] => []
  | times, frame :: rest =>
      ((frame.payload decompress).map fun payload =>
        { payload := payload, wallMs := wallMs, completed := times[frame.bytes.length - 1]? }).toList
        ++ stamp wallMs (times.drop frame.bytes.length) rest

/-! ## Traced flows -/

/-- A flow, and the receive time of every byte of its buffer. -/
structure TracedFlow where
  flow : TapFlow
  times : List Nat

namespace TracedFlow

def default : TracedFlow where
  flow := .default
  times := []

/-- One delivery, with the payloads that it hands to the assembly. -/
def deliver (traced : TracedFlow) : Delivery → TracedFlow × List Stamped
  | .reset reason =>
      ({ flow := (traced.flow.deliver decompress (.reset reason)).1, times := [] }, [])
  | .bytes data wallNs =>
      let wallMs := wallNs / 1000000
      let times := traced.times ++ List.replicate data.length wallMs
      let answered := traced.flow.deliver decompress (.bytes data wallNs)
      let start :=
        if traced.flow.synced then 0
        else (findFrameBoundary decompress (traced.flow.buf ++ data)).getD 0
      ({ flow := answered.1, times := times.drop (times.length - answered.1.buf.length) },
        stamp decompress wallMs (times.drop start) answered.2)

/-- Where the flow synchronises, no frame that was complete before has a payload. -/
def Timely (traced : TracedFlow) (_ : List Stamped) : Delivery → Prop
  | .reset _ => True
  | .bytes data _ => traced.flow.synced = false →
      ∀ start, findFrameBoundary decompress (traced.flow.buf ++ data) = some start →
        ∀ frame ∈ (consumeFrames (traced.flow.buf.drop start)).1,
          frame.payload decompress = none

end TracedFlow

variable {decompress}

/-! ## Frames that were complete before -/

theorem bigEndian_append {buf : List UInt8} (long : 4 ≤ buf.length) (more : List UInt8) :
    bigEndian (buf ++ more) = bigEndian buf := by
  rw [bigEndian_eq, bigEndian_eq, List.take_append_of_le_length long]

/-- The frames that are consumed stand at the front of the buffer. -/
theorem consumeFrames_front (buf : List UInt8) :
    (consumeFrames buf).1.flatMap Frame.bytes <+: buf := by
  induction buf using consumeFrames.induct with
  | case1 buf short =>
      rw [consumeFrames, if_pos short]
      exact List.nil_prefix
  | case2 buf long large =>
      rw [consumeFrames, if_neg long, if_pos large]
      exact List.nil_prefix
  | case3 buf long small part =>
      rw [consumeFrames, if_neg long, if_neg small, if_pos part]
      exact List.nil_prefix
  | case4 buf long small whole ih =>
      rw [consumeFrames, if_neg long, if_neg small, if_neg whole]
      obtain ⟨rest, split⟩ := ih
      refine ⟨rest, ?_⟩
      rw [List.flatMap_cons, List.append_assoc, split, List.take_append_drop]

theorem length_pos_of_consumed {buf : List UInt8} {frame : Frame}
    (member : frame ∈ (consumeFrames buf).1) : 0 < frame.bytes.length := by
  induction buf using consumeFrames.induct with
  | case1 buf short =>
      rw [consumeFrames, if_pos short] at member
      exact absurd member List.not_mem_nil
  | case2 buf long large =>
      rw [consumeFrames, if_neg long, if_pos large] at member
      exact absurd member List.not_mem_nil
  | case3 buf long small part =>
      rw [consumeFrames, if_neg long, if_neg small, if_pos part] at member
      exact absurd member List.not_mem_nil
  | case4 buf long small whole ih =>
      rw [consumeFrames, if_neg long, if_neg small, if_neg whole] at member
      rcases List.mem_cons.mp member with rfl | later
      · rw [List.length_take]
        omega
      · exact ih later

/-- Consuming a longer buffer consumes the frames of its front first. -/
theorem consumeFrames_append (buf more : List UInt8) :
    ((consumeFrames buf).2 = none ∧ consumeFrames (buf ++ more) = consumeFrames buf) ∨
    ∃ rest, (consumeFrames buf).2 = some rest ∧ consumeFrames rest = ([], some rest) ∧
      buf = (consumeFrames buf).1.flatMap Frame.bytes ++ rest ∧
      (consumeFrames (buf ++ more)).1 =
        (consumeFrames buf).1 ++ (consumeFrames (rest ++ more)).1 := by
  induction buf using consumeFrames.induct with
  | case1 buf short =>
      have same : consumeFrames buf = ([], some buf) := by rw [consumeFrames, if_pos short]
      exact Or.inr ⟨buf, by rw [same], same, by rw [same]; rfl, by rw [same]; rfl⟩
  | case2 buf long large =>
      have same : consumeFrames buf = ([], none) := by
        rw [consumeFrames, if_neg long, if_pos large]
      refine Or.inl ⟨by rw [same], ?_⟩
      rw [same, consumeFrames, if_neg (by rw [List.length_append]; omega),
        bigEndian_append (by omega), if_pos large]
  | case3 buf long small part =>
      have same : consumeFrames buf = ([], some buf) := by
        rw [consumeFrames, if_neg long, if_neg small, if_pos part]
      exact Or.inr ⟨buf, by rw [same], same, by rw [same]; rfl, by rw [same]; rfl⟩
  | case4 buf long small whole ih =>
      have header := bigEndian_append (by omega : 4 ≤ buf.length) more
      have first : consumeFrames buf =
          ({ bytes := buf.take (5 + bigEndian buf) } ::
            (consumeFrames (buf.drop (5 + bigEndian buf))).1,
            (consumeFrames (buf.drop (5 + bigEndian buf))).2) := by
        rw [consumeFrames, if_neg long, if_neg small, if_neg whole]
      have both : consumeFrames (buf ++ more) =
          ({ bytes := buf.take (5 + bigEndian buf) } ::
            (consumeFrames (buf.drop (5 + bigEndian buf) ++ more)).1,
            (consumeFrames (buf.drop (5 + bigEndian buf) ++ more)).2) := by
        rw [consumeFrames, header, if_neg (by rw [List.length_append]; omega), if_neg small,
          if_neg (by rw [List.length_append]; omega), List.take_append_of_le_length (by omega),
          List.drop_append_of_le_length (by omega)]
      rw [first, both]
      rcases ih with ⟨none, same⟩ | ⟨rest, left, waits, split, later⟩
      · exact Or.inl ⟨none, by rw [same]⟩
      · refine Or.inr ⟨rest, left, waits, ?_, ?_⟩
        · rw [List.flatMap_cons, List.append_assoc, ← split, List.take_append_drop]
        · rw [later]
          rfl

/-- If nothing whole waits, the first frame that is consumed ends behind the buffer. -/
theorem length_lt_of_waits {buf more : List UInt8} (waits : consumeFrames buf = ([], some buf))
    {frame : Frame} {rest : List Frame}
    (consumed : (consumeFrames (buf ++ more)).1 = frame :: rest) :
    buf.length < frame.bytes.length := by
  rw [consumeFrames] at consumed
  split at consumed
  · cases consumed
  split at consumed
  · cases consumed
  split at consumed
  · cases consumed
  next long small whole =>
    obtain ⟨rfl, _⟩ := List.cons.inj consumed
    rw [List.length_take_of_le (Nat.le_of_not_lt whole)]
    by_contra within
    have header := bigEndian_append (by omega : 4 ≤ buf.length) more
    rw [header] at small within
    rw [consumeFrames, if_neg (by omega), if_neg small, if_neg (by omega)] at waits
    cases waits

/-! ## Stamps -/

theorem stamp_append (wallMs : Nat) (times : List Nat) (first second : List Frame) :
    stamp decompress wallMs times (first ++ second) =
      stamp decompress wallMs times first ++
        stamp decompress wallMs (times.drop (first.flatMap Frame.bytes).length) second := by
  induction first generalizing times with
  | nil => rfl
  | cons frame rest ih =>
      rw [List.cons_append, stamp, stamp, ih, List.append_assoc, List.drop_drop,
        List.flatMap_cons, List.length_append]

theorem stamp_of_no_payload {frames : List Frame}
    (without : ∀ frame ∈ frames, frame.payload decompress = none) (wallMs : Nat)
    (times : List Nat) : stamp decompress wallMs times frames = [] := by
  induction frames generalizing times with
  | nil => rfl
  | cons frame rest ih =>
      obtain ⟨first, later⟩ := List.forall_mem_cons.mp without
      rw [stamp, first, ih later]
      rfl

/-- From the end of the first frame on, every byte came with the delivery. -/
theorem stamp_completed {wallMs : Nat} {times : List Nat} {frames : List Frame}
    (nonempty : ∀ frame ∈ frames, 0 < frame.bytes.length)
    (fits : (frames.flatMap Frame.bytes).length ≤ times.length)
    (late : ∀ frame rest, frames = frame :: rest → ∀ index, frame.bytes.length ≤ index + 1 →
      index < times.length → times[index]? = some wallMs) :
    ∀ stamped ∈ stamp decompress wallMs times frames, stamped.completed = some stamped.wallMs := by
  induction frames generalizing times with
  | nil => exact fun _ member => absurd member List.not_mem_nil
  | cons frame rest ih =>
      obtain ⟨positive, others⟩ := List.forall_mem_cons.mp nonempty
      rw [List.flatMap_cons, List.length_append] at fits
      intro stamped member
      rcases List.mem_append.mp member with here | later
      · obtain ⟨payload, _, rfl⟩ := Option.mem_map.mp (Option.mem_toList.mp here)
        exact late frame rest rfl (frame.bytes.length - 1) (by omega) (by omega)
      · refine ih others (by rw [List.length_drop]; omega) ?_ stamped later
        intro next behind _ index _ within
        rw [List.length_drop] at within
        rw [List.getElem?_drop]
        exact late frame rest rfl _ (by omega) (by omega)

/-- The frames that a delivery releases are stamped with the time at which they were complete,
unless one with a payload was complete before. -/
theorem released_completed {buf data : List UInt8} {times : List Nat}
    (tracked : times.length = buf.length)
    (without : ∀ frame ∈ (consumeFrames buf).1, frame.payload decompress = none) (wallMs : Nat) :
    ∀ stamped ∈ stamp decompress wallMs (times ++ List.replicate data.length wallMs)
        (consumeFrames (buf ++ data)).1, stamped.completed = some stamped.wallMs := by
  rcases consumeFrames_append buf data with ⟨_, same⟩ | ⟨rest, _, waits, split, consumed⟩
  · rw [same, stamp_of_no_payload without]
    exact fun _ member => absurd member List.not_mem_nil
  · have length : (buf.length : Nat) =
        ((consumeFrames buf).1.flatMap Frame.bytes).length + rest.length := by
      conv_lhs => rw [split]
      exact List.length_append
    rw [consumed, stamp_append, stamp_of_no_payload without, List.nil_append,
      List.drop_append_of_le_length (by omega)]
    have fits := (consumeFrames_front (rest ++ data)).length_le
    refine stamp_completed (fun frame member => length_pos_of_consumed member) ?_ ?_
    · rw [List.length_append, List.length_drop, List.length_replicate]
      rw [List.length_append] at fits
      omega
    · intro frame later first index behind within
      have ends := length_lt_of_waits waits first
      rw [List.length_append, List.length_drop, List.length_replicate] at within
      rw [List.getElem?_append_right (by rw [List.length_drop]; omega), List.getElem?_replicate,
        if_pos (by rw [List.length_drop]; omega)]

/-! ## Runs -/

namespace TracedFlow

/-- Every byte of the buffer has its time, and in a synchronised flow nothing whole waits. -/
structure Tracked (traced : TracedFlow) : Prop where
  length : traced.times.length = traced.flow.buf.length
  waits : traced.flow.synced = true → (consumeFrames traced.flow.buf).1 = []

theorem tracked_default : default.Tracked where
  length := rfl
  waits := fun synced => absurd synced Bool.false_ne_true

/-- What consuming leaves in the flow. -/
theorem consume_tracked (flow : TapFlow) (buf : List UInt8) :
    (flow.consume buf).2 = (consumeFrames buf).1 ∧
      (flow.consume buf).1.buf.length ≤ buf.length ∧
      ((flow.consume buf).1.synced = true → (consumeFrames (flow.consume buf).1.buf).1 = []) := by
  rcases consumeFrames_append buf [] with ⟨desync, _⟩ | ⟨rest, left, waits, split, _⟩
  · have pair : consumeFrames buf = ((consumeFrames buf).1, none) := by rw [← desync]
    unfold TapFlow.consume
    rw [pair]
    exact ⟨rfl, Nat.zero_le _, fun synced => absurd synced Bool.false_ne_true⟩
  · have pair : consumeFrames buf = ((consumeFrames buf).1, some rest) := by rw [← left]
    have shorter : rest.length ≤ buf.length := by
      rw [split, List.length_append]
      exact Nat.le_add_left _ _
    unfold TapFlow.consume
    rw [pair]
    exact ⟨rfl, shorter, fun _ => by rw [waits]⟩

/-- The three ways of a delivery with bytes. -/
theorem deliver_cases (decompress : List UInt8 → Nat → Option (List UInt8)) (flow : TapFlow)
    (data : List UInt8) (wallNs : Nat) :
    (flow.synced = true ∧
      flow.deliver decompress (.bytes data wallNs) = flow.consume (flow.buf ++ data)) ∨
    (flow.synced = false ∧ ∃ start,
      findFrameBoundary decompress (flow.buf ++ data) = some start ∧
      flow.deliver decompress (.bytes data wallNs) =
        flow.consume ((flow.buf ++ data).drop start)) ∨
    (flow.synced = false ∧
      (flow.deliver decompress (.bytes data wallNs)).1.synced = false ∧
      (flow.deliver decompress (.bytes data wallNs)).1.buf.length ≤ (flow.buf ++ data).length ∧
      (flow.deliver decompress (.bytes data wallNs)).2 = []) := by
  unfold TapFlow.deliver
  dsimp only
  cases synced : flow.synced with
  | true => exact Or.inl ⟨rfl, if_pos rfl⟩
  | false =>
      rw [if_neg Bool.false_ne_true]
      cases found : findFrameBoundary decompress (flow.buf ++ data) with
      | some start => exact Or.inr (Or.inl ⟨rfl, start, rfl, rfl⟩)
      | none =>
          refine Or.inr (Or.inr ⟨rfl, rfl, ?_, rfl⟩)
          dsimp only
          split
          · rw [List.length_drop]
            exact Nat.sub_le _ _
          · exact Nat.le_refl _

variable {traced : TracedFlow}

theorem Tracked.deliver (tracked : traced.Tracked) (delivery : Delivery) :
    (traced.deliver decompress delivery).1.Tracked := by
  cases delivery with
  | reset reason => exact ⟨rfl, fun synced => absurd synced Bool.false_ne_true⟩
  | bytes data wallNs =>
      have all : (traced.times ++ List.replicate data.length (wallNs / 1000000)).length =
          (traced.flow.buf ++ data).length := by
        rw [List.length_append, List.length_append, List.length_replicate, tracked.length]
      have times : ∀ left, left ≤ (traced.flow.buf ++ data).length →
          ((traced.times ++ List.replicate data.length (wallNs / 1000000)).drop
            ((traced.times ++ List.replicate data.length (wallNs / 1000000)).length - left)).length
              = left := by
        intro left within
        rw [List.length_drop, all]
        omega
      rcases deliver_cases decompress traced.flow data wallNs with
        ⟨_, same⟩ | ⟨_, start, _, same⟩ | ⟨_, unsynced, shorter, _⟩
      · obtain ⟨_, shorter, waits⟩ := consume_tracked traced.flow (traced.flow.buf ++ data)
        rw [← same] at shorter waits
        exact ⟨times _ shorter, waits⟩
      · obtain ⟨_, shorter, waits⟩ :=
          consume_tracked traced.flow ((traced.flow.buf ++ data).drop start)
        rw [← same] at shorter waits
        rw [List.length_drop] at shorter
        exact ⟨times _ (by omega), waits⟩
      · exact ⟨times _ shorter, fun synced => absurd (unsynced.symm.trans synced)
          Bool.false_ne_true⟩

/-- A timely delivery hands on payloads that were completed by itself. -/
theorem Tracked.completed (tracked : traced.Tracked) {out : List Stamped} {delivery : Delivery}
    (timely : traced.Timely decompress out delivery) :
    ∀ stamped ∈ (traced.deliver decompress delivery).2,
      stamped.completed = some stamped.wallMs := by
  cases delivery with
  | reset reason => exact fun _ member => absurd member List.not_mem_nil
  | bytes data wallNs =>
      unfold TracedFlow.deliver
      dsimp only
      rcases deliver_cases decompress traced.flow data wallNs with
        ⟨synced, same⟩ | ⟨unsynced, start, found, same⟩ | ⟨_, _, _, nothing⟩
      · have waits := tracked.waits synced
        rw [same, (consume_tracked traced.flow _).1, if_pos synced, List.drop_zero]
        refine released_completed tracked.length (fun frame member => ?_) (wallNs / 1000000)
        rw [waits] at member
        exact absurd member List.not_mem_nil
      · rw [same, (consume_tracked traced.flow _).1, if_neg (by simp [unsynced]), found,
          Option.getD_some, List.drop_append, List.drop_append, List.drop_replicate,
          tracked.length, ← List.length_drop]
        refine released_completed ?_ (timely unsynced start found) (wallNs / 1000000)
        rw [List.length_drop, List.length_drop, tracked.length]
      · rw [nothing]
        exact fun _ member => absurd member List.not_mem_nil

end TracedFlow

/--
In every run of a flow, with any bytes and any resets, in which no frame with a
payload was complete before the delivery that synchronises the flow releases it,
every payload is stamped with the time of the delivery that completed its frame.
-/
theorem stamps_are_own {deliveries : List Delivery}
    (timely : Throughout (TracedFlow.deliver decompress) (TracedFlow.Timely decompress)
      TracedFlow.default [] deliveries) :
    ∀ stamped ∈ (feed (TracedFlow.deliver decompress) TracedFlow.default deliveries).2,
      stamped.completed = some stamped.wallMs := by
  have run : ∀ {traced : TracedFlow} {out : List Stamped}, traced.Tracked →
      Throughout (TracedFlow.deliver decompress) (TracedFlow.Timely decompress) traced out
        deliveries →
      ∀ stamped ∈ (feed (TracedFlow.deliver decompress) traced deliveries).2,
        stamped.completed = some stamped.wallMs := by
    clear timely
    induction deliveries with
    | nil => exact fun _ _ _ member => absurd member List.not_mem_nil
    | cons delivery rest ih =>
        rintro traced out tracked ⟨here, later⟩ stamped member
        rw [feed_cons] at member
        rcases List.mem_append.mp member with first | following
        · exact tracked.completed here stamped first
        · exact ih (tracked.deliver delivery) later stamped following
  exact run TracedFlow.tracked_default timely

/-- The frames that synchronise the flow come at once, and one more later. -/
def deliveredAtOnce : List Delivery :=
  [.bytes (wire [dataFrame, dataFrame, dataFrame, dataFrame]) 1000000000,
    .bytes (wire [dataFrame]) 2000000000]

theorem stamps_are_own_at_once :
    ∃ stamped ∈ (feed (TracedFlow.deliver literalBlock) TracedFlow.default deliveredAtOnce).2,
      stamped.wallMs = 2000 ∧ stamped.completed = some 2000 := by
  obtain ⟨stamped, member, late⟩ : ∃ stamped ∈
      (feed (TracedFlow.deliver literalBlock) TracedFlow.default deliveredAtOnce).2,
        stamped.wallMs = 2000 := by decide +kernel
  have synced : (TracedFlow.default.deliver literalBlock
      (.bytes (wire [dataFrame, dataFrame, dataFrame, dataFrame]) 1000000000)).1.flow.synced =
        true := by decide +kernel
  have timely : Throughout (TracedFlow.deliver literalBlock) (TracedFlow.Timely literalBlock)
      TracedFlow.default [] deliveredAtOnce := by
    refine ⟨fun _ start _ frame waiting => ?_, fun unsynced => ?_, trivial⟩
    · have nothing : (consumeFrames (([] : List UInt8).drop start)).1 = [] := by
        rw [List.drop_nil, consumeFrames, if_pos (by decide)]
      exact absurd (nothing ▸ waiting) List.not_mem_nil
    · exact absurd (unsynced.symm.trans synced) Bool.false_ne_true
  have completed := stamps_are_own timely stamped member
  exact ⟨stamped, member, late, by rw [completed, late]⟩

/-- Three frames come at one second, and are released with the fourth at two seconds. -/
theorem late_release_restamps :
    ∃ stamped ∈ (feed (TracedFlow.deliver literalBlock) TracedFlow.default
      [.bytes (wire [dataFrame, dataFrame, dataFrame]) 1000000000,
        .bytes (wire [dataFrame]) 2000000000]).2,
      stamped.wallMs = 2000 ∧ stamped.completed = some 1000 := by
  decide +kernel

end MarketBenchmark.Tap
