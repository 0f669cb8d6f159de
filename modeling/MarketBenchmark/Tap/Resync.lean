import MarketBenchmark.Tap.Boundaries

/-!
# Resynchronising after a join

Until it finds a boundary the reader keeps a tail of two largest frames and
looks again with every piece.  It finds one as soon as a kept tail and the piece
behind it hold a chain of frames, so it may miss frames that are longer than the
tail together.
-/

namespace MarketBenchmark.Tap

open Foundation.Endian
open Foundation.Streams

variable (decompress : List UInt8 → Nat → Option (List UInt8))

/-! ## Searching -/

/-- What the search keeps of the bytes without a boundary. -/
def keptBytes : Nat := (maxFrameBody + 5) * 2

def keptTail (bytes : List UInt8) : List UInt8 := bytes.drop (bytes.length - keptBytes)

/-- A delivered piece of the stream and its receive time. -/
abbrev Piece : Type := List UInt8 × Nat

def received (pieces : List Piece) : List UInt8 := pieces.flatMap Prod.fst

/-- The unsynced branch finds a boundary with one of the pieces. -/
def HasFound : TapFlow → List Piece → Prop
  | _, [] => False
  | flow, (data, wallNs) :: rest =>
      (flow.synced = false ∧ (findFrameBoundary decompress (flow.buf ++ data)).isSome) ∨
        HasFound (flow.deliver decompress (.bytes data wallNs)).1 rest

/-- Some piece holds a chain together with the tail of what came before it. -/
def KeptChain (pieces : List Piece) : Prop :=
  ∃ earlier piece later, pieces = earlier ++ piece :: later ∧
    ∃ start, HoldsChain decompress ((keptTail (received earlier) ++ piece.1).drop start)

variable {decompress}

theorem keptTail_append (bytes data : List UInt8) :
    keptTail (keptTail bytes ++ data) = keptTail (bytes ++ data) := by
  unfold keptTail
  generalize keptBytes = keep
  rw [← List.drop_append_of_le_length (Nat.sub_le bytes.length keep), List.drop_drop,
    List.length_drop, List.length_append]
  congr 1
  omega

/-- A piece without a boundary leaves the tail. -/
theorem deliver_without_boundary {flow : TapFlow} {bytes data : List UInt8}
    (unsynced : flow.synced = false) (kept : flow.buf = keptTail bytes)
    (none : ¬(findFrameBoundary decompress (flow.buf ++ data)).isSome) (wallNs : Nat) :
    (flow.deliver decompress (.bytes data wallNs)).1.synced = false ∧
      (flow.deliver decompress (.bytes data wallNs)).1.buf = keptTail (bytes ++ data) := by
  rw [← keptTail_append, ← kept]
  unfold TapFlow.deliver
  dsimp only
  rw [if_neg (by simp [unsynced]), Option.not_isSome_iff_eq_none.mp none]
  refine ⟨unsynced, ?_⟩
  dsimp only
  split
  · rfl
  next short =>
    have all : (flow.buf ++ data).length - keptBytes = 0 :=
      Nat.sub_eq_zero_of_le (Nat.le_of_not_lt short)
    rw [keptTail, all, List.drop_zero]

/-- The search finds a boundary exactly when a kept tail and a piece hold a chain. -/
theorem hasFound_iff_of_kept {flow : TapFlow} {bytes : List UInt8} {pieces : List Piece}
    (unsynced : flow.synced = false) (kept : flow.buf = keptTail bytes) :
    HasFound decompress flow pieces ↔
      ∃ earlier piece later, pieces = earlier ++ piece :: later ∧ ∃ start,
        HoldsChain decompress ((keptTail (bytes ++ received earlier) ++ piece.1).drop start) := by
  induction pieces generalizing flow bytes with
  | nil => simp [HasFound]
  | cons piece rest ih =>
      obtain ⟨data, wallNs⟩ := piece
      by_cases found : (findFrameBoundary decompress (flow.buf ++ data)).isSome
      · refine iff_of_true (Or.inl ⟨unsynced, found⟩) ⟨[], _, rest, rfl, ?_⟩
        rw [kept, findFrameBoundary_isSome] at found
        simpa [received] using found
      · obtain ⟨stillUnsynced, stillKept⟩ :=
          deliver_without_boundary unsynced kept found wallNs
        have here : HasFound decompress flow ((data, wallNs) :: rest) ↔
            HasFound decompress (flow.deliver decompress (.bytes data wallNs)).1 rest :=
          or_iff_right fun both => found both.2
        rw [here, ih stillUnsynced stillKept]
        constructor
        · rintro ⟨earlier, piece, later, rfl, chain⟩
          refine ⟨(data, wallNs) :: earlier, piece, later, rfl, ?_⟩
          simpa [received, List.append_assoc] using chain
        · rintro ⟨earlier, piece, later, split, chain⟩
          cases earlier with
          | nil =>
              cases split
              rw [kept, findFrameBoundary_isSome] at found
              exact absurd (by simpa [received] using chain) found
          | cons first earlier =>
              cases split
              refine ⟨earlier, piece, later, rfl, ?_⟩
              simpa [received, List.append_assoc] using chain

theorem hasFound_iff {flow : TapFlow} {pieces : List Piece} (unsynced : flow.synced = false)
    (empty : flow.buf = []) : HasFound decompress flow pieces ↔ KeptChain decompress pieces := by
  have kept : flow.buf = keptTail [] := by simp [empty, keptTail]
  rw [hasFound_iff_of_kept unsynced kept]
  simp only [List.nil_append]
  rfl

/-! ## Streams of frames -/

/-- A stream of frames of kind 0 or 1 whose data frames decompress, joined at an offset; the
pieces deliver it from there on. -/
structure Joined (decompress : List UInt8 → Nat → Option (List UInt8)) (frames : List WireFrame)
    (join : Nat) (pieces : List Piece) : Prop where
  wellFormed : ∀ frame ∈ frames, frame.WellFormed decompress
  delivered : received pieces <+: (wire frames).drop join

/-- The bytes received hold these frames of the stream as a whole. -/
def HoldsWhole (frames : List WireFrame) (join : Nat) (pieces : List Piece)
    (window : List WireFrame) : Prop :=
  ∃ before after, frames = before ++ window ++ after ∧ join ≤ (wire before).length ∧
    (wire before).length + (wire window).length ≤ join + (received pieces).length

/-- The piece with which so many bytes are received. -/
theorem exists_piece {pieces : List Piece} {size : Nat} (positive : 0 < size)
    (within : size ≤ (received pieces).length) :
    ∃ earlier piece later, pieces = earlier ++ piece :: later ∧
      (received earlier).length < size ∧
      size ≤ (received earlier).length + piece.1.length := by
  induction pieces generalizing size with
  | nil => exact absurd within (Nat.not_le.mpr positive)
  | cons piece rest ih =>
      by_cases here : size ≤ piece.1.length
      · exact ⟨[], piece, rest, rfl, positive, by simpa [received] using here⟩
      · have split : received (piece :: rest) = piece.1 ++ received rest := rfl
        rw [split, List.length_append] at within
        obtain ⟨earlier, found, later, rfl, below, above⟩ :=
          ih (Nat.sub_pos_of_lt (Nat.lt_of_not_le here)) (by omega)
        refine ⟨piece :: earlier, found, later, rfl, ?_⟩
        have grown : received (piece :: earlier) = piece.1 ++ received earlier := rfl
        rw [grown, List.length_append]
        omega

/-- A chain that spans at most one byte more than the kept tail is still there when its last byte
arrives. -/
theorem keptChain_of_short {frames window : List WireFrame} {join : Nat} {pieces : List Piece}
    (joined : Joined decompress frames join pieces) (chain : Chain decompress window)
    (whole : HoldsWhole frames join pieces window)
    (short : (wire window).length ≤ keptBytes + 1) : KeptChain decompress pieces := by
  obtain ⟨before, after, rfl, late, within⟩ := whole
  obtain ⟨start, joins⟩ := Nat.exists_eq_add_of_le late
  have long := length_wire chain.wellFormed
  rw [chain.length] at long
  unfold resyncFrames at long
  have size : start + (wire window).length ≤ (received pieces).length := by omega
  obtain ⟨earlier, piece, later, rfl, below, above⟩ := exists_piece (by omega) size
  have all : received (earlier ++ piece :: later) =
      received earlier ++ piece.1 ++ received later := by
    simp [received]
  -- the window occurs in what came up to the piece with its last byte
  have occurs : OccursAt (received earlier ++ piece.1) start (wire window) := by
    have stream : wire window <+: (wire (before ++ window ++ after)).drop (join + start) := by
      rw [← joins, wire_append, wire_append, List.append_assoc, List.drop_left]
      exact List.prefix_append _ _
    have inReceived : received earlier ++ piece.1 <+:
        (wire (before ++ window ++ after)).drop join := by
      have delivered := joined.delivered
      rw [all] at delivered
      exact (List.prefix_append _ _).trans delivered
    rw [← List.drop_drop] at stream
    refine List.prefix_of_prefix_length_le stream (inReceived.drop start) ?_
    rw [List.length_drop, List.length_append]
    omega
  refine ⟨earlier, piece, later, rfl, start - ((received earlier).length - keptBytes), window,
    chain, ?_⟩
  have cut : keptTail (received earlier) ++ piece.1 =
      (received earlier ++ piece.1).drop ((received earlier).length - keptBytes) := by
    unfold keptTail
    rw [List.drop_append_of_le_length (Nat.sub_le _ _)]
  rw [cut, List.drop_drop, Nat.add_sub_cancel' (by omega)]
  exact occurs

/--
The boundary found is the least offset with a chain, and its frames are
consumed before anything behind them is looked at.  A search that starts with an
empty buffer has found a boundary exactly when some piece holds a chain together
with the kept tail of what came before it, as it does once frames in a row that
span no more than the tail and one byte have come whole.
-/
theorem resync_finds_kept_chains (decompress : List UInt8 → Nat → Option (List UInt8)) :
    (∀ buf start, findFrameBoundary decompress buf = some start ↔
      HoldsChain decompress (buf.drop start) ∧
        ∀ earlier < start, ¬HoldsChain decompress (buf.drop earlier)) ∧
    (∀ buf start, findFrameBoundary decompress buf = some start →
      ∃ frames rest, Chain decompress frames ∧ buf.drop start = wire frames ++ rest ∧
        consumeFrames (buf.drop start) =
          (frames.map WireFrame.frame ++ (consumeFrames rest).1, (consumeFrames rest).2)) ∧
    ∀ flow pieces, TapFlow.synced flow = false → flow.buf = [] →
      (HasFound decompress flow pieces ↔ KeptChain decompress pieces) ∧
      ∀ frames join window, Joined decompress frames join pieces → Chain decompress window →
        HoldsWhole frames join pieces window → (wire window).length ≤ keptBytes + 1 →
        HasFound decompress flow pieces := by
  refine ⟨fun buf start => findFrameBoundary_eq_some, fun buf start found => ?_,
    fun flow pieces unsynced empty => ?_⟩
  · obtain ⟨frames, chain, rest, split⟩ := (findFrameBoundary_eq_some.mp found).1
    refine ⟨frames, rest, chain, split.symm, ?_⟩
    rw [← split]
    exact consumeFrames_wire (fun frame member => (chain.wellFormed frame member).small) rest
  · have found : HasFound decompress flow pieces ↔ KeptChain decompress pieces :=
      hasFound_iff unsynced empty
    exact ⟨found, fun frames join window joined chain whole short =>
      found.mpr (keptChain_of_short joined chain whole short)⟩

/-! ## Large frames -/

/-- An LZ4 block of one short run of literals. -/
def literalBlock : List UInt8 → Nat → Option (List UInt8)
  | [], _ => none
  | token :: literals, size =>
      if token.toNat = 16 * literals.length ∧ literals.length < 15 ∧ literals.length ≤ size then
        some literals
      else none

/-- A data frame with the payload `A`. -/
def dataFrame : WireFrame where
  kind := 1
  body := [1, 0, 0, 0, 0x10, 0x41]

/-- A frame of the largest size, without a low byte in its body. -/
@[irreducible]
def largeFrame : WireFrame where
  kind := 0
  body := List.replicate maxFrameBody 0xff

theorem dataFrame_wellFormed : dataFrame.WellFormed literalBlock where
  kind := by decide
  nonempty := by decide
  small := by decide
  decodes _ := by decide

theorem kind_largeFrame : largeFrame.kind = 0 := by
  unfold largeFrame
  rfl

theorem body_largeFrame : largeFrame.body = List.replicate maxFrameBody 0xff := by
  unfold largeFrame
  rfl

theorem length_body_largeFrame : largeFrame.body.length = maxFrameBody := by
  rw [body_largeFrame, List.length_replicate]

theorem largeFrame_wellFormed : largeFrame.WellFormed literalBlock where
  kind := by
    rw [kind_largeFrame]
    decide
  nonempty := by
    rw [length_body_largeFrame]
    decide
  small := length_body_largeFrame.le
  decodes data := by
    rw [kind_largeFrame] at data
    exact absurd data (by decide)

theorem resync_finds_kept_chains_small :
    HasFound literalBlock .default
      [(wire [dataFrame, dataFrame, dataFrame], 0), (wire [dataFrame], 0)] := by
  have frames : ∀ frame ∈ [dataFrame, dataFrame, dataFrame, dataFrame],
      frame.WellFormed literalBlock := by
    simp [dataFrame_wellFormed]
  have chain : Chain literalBlock [dataFrame, dataFrame, dataFrame, dataFrame] :=
    ⟨rfl, frames, dataFrame, List.mem_cons_self, rfl⟩
  refine ((resync_finds_kept_chains literalBlock).2.2 .default _ rfl rfl).2
    [dataFrame, dataFrame, dataFrame, dataFrame] 0 _ ⟨frames, ?_⟩ chain ⟨[], [], ?_⟩ ?_
  · simp [received]
  · simp [received]
  · decide

/-! ## Positions of low bytes -/

/-- There is a byte at the position that can be a kind. -/
def LowAt (buf : List UInt8) (position : Nat) : Prop :=
  ∃ byte, buf[position]? = some byte ∧ byte ≤ 1

theorem lowAt_append {first second : List UInt8} {position : Nat}
    (low : LowAt (first ++ second) position) :
    LowAt first position ∨
      first.length ≤ position ∧ LowAt second (position - first.length) := by
  obtain ⟨byte, found, small⟩ := low
  by_cases within : position < first.length
  · rw [List.getElem?_append_left within] at found
    exact Or.inl ⟨byte, found, small⟩
  · have behind := Nat.le_of_not_lt within
    rw [List.getElem?_append_right behind] at found
    exact Or.inr ⟨behind, byte, found, small⟩

/-- The kinds of the frames of a chain are low bytes that lie apart. -/
theorem lowAt_of_chain {buf : List UInt8} {start : Nat}
    (holds : HoldsChain decompress (buf.drop start)) :
    ∃ first second third fourth, 4 ≤ first ∧ first + 6 ≤ second ∧ second + 6 ≤ third ∧
      third + 6 ≤ fourth ∧ LowAt buf first ∧ LowAt buf second ∧ LowAt buf third ∧
      LowAt buf fourth := by
  have step : ∀ {offset frame rest}, WireFrame.WellFormed decompress frame →
      OccursAt buf offset (wire (frame :: rest)) →
      LowAt buf (offset + 4) ∧ 0 < frame.body.length ∧
        OccursAt buf (offset + (5 + frame.body.length)) (wire rest) := by
    intro offset frame rest wellFormed occurs
    rw [wire_cons, occursAt_append, frame.length_bytes] at occurs
    refine ⟨⟨frame.kind, ?_, wellFormed.kind⟩, wellFormed.nonempty, occurs.2⟩
    have header := (occursAt_append.mp occurs.1).2
    rw [length_toBe] at header
    exact (occursAt_cons.mp header).1
  obtain ⟨frames, chain, occurs⟩ := holds
  have length : frames.length = 3 + 1 := chain.length
  have wellFormed := chain.wellFormed
  obtain ⟨one, frames, rfl⟩ := List.exists_cons_of_length_eq_add_one length
  obtain ⟨two, frames, rfl⟩ := List.exists_cons_of_length_eq_add_one (Nat.succ.inj length)
  obtain ⟨three, frames, rfl⟩ :=
    List.exists_cons_of_length_eq_add_one (Nat.succ.inj (Nat.succ.inj length))
  obtain ⟨four, frames, rfl⟩ :=
    List.exists_cons_of_length_eq_add_one (Nat.succ.inj (Nat.succ.inj (Nat.succ.inj length)))
  simp only [List.forall_mem_cons] at wellFormed
  obtain ⟨lowOne, positiveOne, occurs⟩ := step wellFormed.1 occurs
  obtain ⟨lowTwo, positiveTwo, occurs⟩ := step wellFormed.2.1 occurs
  obtain ⟨lowThree, positiveThree, occurs⟩ := step wellFormed.2.2.1 occurs
  obtain ⟨lowFour, _, _⟩ := step wellFormed.2.2.2.1 occurs
  exact ⟨_, _, _, _, by omega, by omega, by omega, by omega, lowOne, lowTwo, lowThree, lowFour⟩

theorem length_largeFrame : largeFrame.bytes.length = 5 + maxFrameBody := by
  rw [WireFrame.length_bytes, length_body_largeFrame]

theorem lowAt_largeFrame {position : Nat} (low : LowAt largeFrame.bytes position) :
    position < 5 := by
  have header := length_toBe 4 largeFrame.body.length
  rw [WireFrame.bytes, List.append_cons] at low
  rcases lowAt_append low with ⟨byte, found, _⟩ | ⟨_, byte, found, small⟩
  · have within := (List.getElem?_eq_some_iff.mp found).1
    rwa [List.length_append, header] at within
  · have member := List.mem_of_getElem? found
    rw [body_largeFrame] at member
    rw [List.eq_of_mem_replicate member] at small
    exact absurd small (by decide)

theorem lowAt_dataFrame {position : Nat} (low : LowAt dataFrame.bytes position) :
    position < 9 := by
  obtain ⟨byte, found, small⟩ := low
  have within : position < 11 := (List.getElem?_eq_some_iff.mp found).1
  by_contra late
  have last : position = 9 ∨ position = 10 := by omega
  rcases last with rfl | rfl
  · cases found
    exact absurd small (by decide)
  · cases found
    exact absurd small (by decide)

/-- What is kept of a data frame and two large ones is the large ones. -/
theorem keptTail_large :
    keptTail (wire [dataFrame, largeFrame, largeFrame]) = wire [largeFrame, largeFrame] := by
  have surplus : (wire [dataFrame, largeFrame, largeFrame]).length - keptBytes =
      dataFrame.bytes.length := by
    rw [wire_cons, wire_cons, wire_cons, wire_nil, List.append_nil, List.length_append,
      List.length_append, length_largeFrame, keptBytes]
    generalize dataFrame.bytes.length = first
    generalize maxFrameBody = body
    omega
  unfold keptTail
  rw [surplus, wire_cons, List.drop_left]

/-- Low bytes in three short places are too few for a chain. -/
theorem no_chain_of_low {buf : List UInt8} (second third : Nat)
    (low : ∀ {position}, LowAt buf position → position < 9 ∨
      second ≤ position ∧ position < second + 5 ∨ third ≤ position ∧ position < third + 5)
    (start : Nat) : ¬HoldsChain decompress (buf.drop start) := by
  intro chain
  obtain ⟨one, two, three, four, begins, afterOne, afterTwo, afterThree, lowOne, lowTwo, lowThree,
    lowFour⟩ := lowAt_of_chain chain
  have placeOne := low lowOne
  have placeTwo := low lowTwo
  have placeThree := low lowThree
  have placeFour := low lowFour
  omega

/-- The first piece has headers in three places, and a kind is behind the first four bytes. -/
theorem no_chain_before (start : Nat) :
    ¬HoldsChain literalBlock ((wire [dataFrame, largeFrame, largeFrame]).drop start) := by
  refine no_chain_of_low 11 (16 + maxFrameBody) (fun {position} low => ?_) start
  have first : dataFrame.bytes.length = 11 := rfl
  have second := length_largeFrame
  rw [wire_cons] at low
  rcases lowAt_append low with inData | ⟨behind, low⟩
  · exact Or.inl (lowAt_dataFrame inData)
  · rw [first] at behind low
    rcases lowAt_append low with inFirst | ⟨later, low⟩
    · have header := lowAt_largeFrame inFirst
      omega
    · rw [second] at later low
      rcases lowAt_append low with inSecond | ⟨_, _, impossible, _⟩
      · have header := lowAt_largeFrame inSecond
        omega
      · cases impossible

/-- Three large frames have headers in three places. -/
theorem no_chain_behind (start : Nat) :
    ¬HoldsChain literalBlock ((wire [largeFrame, largeFrame, largeFrame]).drop start) := by
  have length := length_largeFrame
  refine no_chain_of_low (5 + maxFrameBody) (10 + 2 * maxFrameBody)
    (fun {position} low => ?_) start
  rcases lowAt_append low with inFirst | ⟨behind, low⟩
  · have header := lowAt_largeFrame inFirst
    omega
  · rw [length] at behind low
    rcases lowAt_append low with inSecond | ⟨later, low⟩
    · have header := lowAt_largeFrame inSecond
      omega
    · rw [length] at later low
      rcases lowAt_append low with inThird | ⟨_, _, impossible, _⟩
      · have header := lowAt_largeFrame inThird
        omega
      · cases impossible

/-- A small data frame and three largest frames come in two pieces, and the search misses them. -/
theorem resync_misses_large_frames :
    Joined literalBlock [dataFrame, largeFrame, largeFrame, largeFrame] 0
      [(wire [dataFrame, largeFrame, largeFrame], 0), (wire [largeFrame], 0)] ∧
    Chain literalBlock [dataFrame, largeFrame, largeFrame, largeFrame] ∧
    HoldsWhole [dataFrame, largeFrame, largeFrame, largeFrame] 0
      [(wire [dataFrame, largeFrame, largeFrame], 0), (wire [largeFrame], 0)]
      [dataFrame, largeFrame, largeFrame, largeFrame] ∧
    ¬HasFound literalBlock .default
      [(wire [dataFrame, largeFrame, largeFrame], 0), (wire [largeFrame], 0)] := by
  have frames : ∀ frame ∈ [dataFrame, largeFrame, largeFrame, largeFrame],
      frame.WellFormed literalBlock := by
    simp [dataFrame_wellFormed, largeFrame_wellFormed]
  refine ⟨⟨frames, ?_⟩, ⟨rfl, frames, dataFrame, List.mem_cons_self, rfl⟩, ⟨[], [], ?_⟩, ?_⟩
  · rw [received, List.flatMap_cons, List.flatMap_cons, List.flatMap_nil, List.append_nil,
      ← wire_append, List.drop_zero]
    exact List.prefix_refl _
  · refine ⟨rfl, Nat.zero_le _, ?_⟩
    rw [received, List.flatMap_cons, List.flatMap_cons, List.flatMap_nil, List.append_nil,
      ← wire_append, wire_nil, List.length_nil]
    exact Nat.le_refl _
  rw [hasFound_iff rfl rfl]
  rintro ⟨earlier, piece, later, split, start, chain⟩
  cases earlier with
  | nil =>
      obtain ⟨here, _⟩ := List.cons.inj split
      have kept : keptTail (received []) = [] := by
        rw [received, List.flatMap_nil, keptTail, List.drop_nil]
      rw [← here, kept, List.nil_append] at chain
      exact no_chain_before start chain
  | cons first earlier =>
      obtain ⟨here, split⟩ := List.cons.inj split
      cases earlier with
      | nil =>
          obtain ⟨last, _⟩ := List.cons.inj split
          rw [← here, ← last] at chain
          have kept : keptTail (received [(wire [dataFrame, largeFrame, largeFrame], 0)]) =
              wire [largeFrame, largeFrame] := by
            rw [received, List.flatMap_cons, List.flatMap_nil, List.append_nil]
            exact keptTail_large
          rw [kept, ← wire_append] at chain
          exact no_chain_behind start chain
      | cons second earlier =>
          obtain ⟨_, none⟩ := List.cons.inj split
          exact absurd none.symm (List.append_ne_nil_of_right_ne_nil _ (List.cons_ne_nil _ _))

end MarketBenchmark.Tap
