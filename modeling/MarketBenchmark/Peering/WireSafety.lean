import MarketBenchmark.Peering.Frames

/-!
# Wire input cannot crash the peering parsers

Every reader of a frame ends without a panic on every body, so the loop over
frames does on every buffer.  What it leaves in the buffer is shorter than one
frame, so a buffer fed read by read never outgrows the memory either.
-/

namespace MarketBenchmark.Peering

open Foundation
open Foundation.Panics
open Foundation.Endian

variable (payload : Slice)

/-! ## Bundle payloads -/

theorem yields_readBincodeVarint (i : Nat) : Yields (readBincodeVarint payload i) fun read =>
    i < read.2 ∧ read.2 ≤ payload.length := by
  unfold readBincodeVarint
  refine Yields.bind (payload.yields_get i) fun tag found => ?_
  have within := payload.lt_of_getElem?_eq_some found
  split
  · exact payload.yields_readHere within tag.toNat
  split
  · exact payload.yields_readBehind within (by decide : 2 ∈ [1, 2]) (by decide) fromLe
  split
  · exact payload.yields_readBehind within (by decide : 4 ∈ [1, 2, 3, 4]) (by decide) fromLe
  split
  · exact payload.yields_readBehind within (by decide : 8 ∈ [1, 2, 3, 4, 5, 6, 7, 8])
      (by decide) fromLe
  · exact Yields.failure

theorem yields_readMsgpackUint (i : Nat) : Yields (readMsgpackUint payload i) fun read =>
    i < read.2 ∧ read.2 ≤ payload.length := by
  unfold readMsgpackUint
  refine Yields.bind (payload.yields_get i) fun tag found => ?_
  have within := payload.lt_of_getElem?_eq_some found
  split
  · exact payload.yields_readHere within tag.toNat
  split
  · exact payload.yields_readBehind within (by decide : 1 ∈ [1]) (by decide) fromBe
  split
  · exact payload.yields_readBehind within (by decide : 2 ∈ [1, 2]) (by decide) fromBe
  split
  · exact payload.yields_readBehind within (by decide : 4 ∈ [1, 2, 3, 4]) (by decide) fromBe
  split
  · exact payload.yields_readBehind within (by decide : 8 ∈ [1, 2, 3, 4, 5, 6, 7, 8])
      (by decide) fromBe
  · exact Yields.failure

theorem yields_indexCount (anchor : Nat) : Yields (indexCount payload anchor) fun read =>
    anchor < read.2 ∧ read.2 ≤ payload.length := by
  unfold indexCount
  refine Yields.bind (payload.yields_get anchor) fun tag found => ?_
  have within := payload.lt_of_getElem?_eq_some found
  split
  · exact payload.yields_readHere within (tag &&& 0x0f).toNat
  split
  · exact payload.yields_readBehind within (by decide : 2 ∈ [1, 2]) (by decide) fromBe
  split
  · exact payload.yields_readBehind within (by decide : 4 ∈ [1, 2, 3, 4]) (by decide) fromBe
  · exact Yields.failure

theorem yields_sumLengths (count : Nat) {pos : Nat} (sum : Nat) (within : pos ≤ payload.length) :
    Yields (sumLengths payload count pos sum) fun read => read.2 ≤ payload.length := by
  induction count generalizing pos sum with
  | zero => exact Yields.pure within
  | succ count ih =>
      unfold sumLengths
      refine Yields.bind (yields_readMsgpackUint payload pos) ?_
      rintro ⟨len, next⟩ ⟨_, inside⟩
      dsimp only at inside ⊢
      split
      · exact Yields.failure
      · refine Yields.bind (yields_checkedAdd sum len) ?_
        rintro _ ⟨rfl, _⟩
        exact ih (sum + len) inside

/-- A validated length index ends within the payload. -/
theorem yields_validateLengthIndex (anchor : Nat) :
    Yields (validateLengthIndex payload anchor) fun recordStart =>
      recordStart ≤ payload.length := by
  unfold validateLengthIndex
  refine Yields.bind (yields_indexCount payload anchor) ?_
  rintro ⟨count, first⟩ ⟨_, inside⟩
  dsimp only at inside ⊢
  split
  · exact Yields.failure
  refine Yields.bind (yields_sumLengths payload count 0 inside) ?_
  rintro ⟨sum, pos⟩ within
  refine Yields.bind (yields_checkedAdd pos sum) ?_
  rintro _ ⟨rfl, _⟩
  dsimp only at within ⊢
  split
  · exact Yields.failure
  next fits =>
  refine Yields.bind (Yields.lift (returns_subUsize (Nat.le_of_not_lt fits))) ?_
  rintro _ rfl
  split
  · exact Yields.failure
  · exact Yields.pure within

theorem yields_firstSigFrom (anchors : List Nat) :
    Yields (firstSigFrom payload anchors) (CopiedFrom payload) := by
  induction anchors with
  | nil => exact Yields.failure
  | cons anchor rest ih =>
      unfold firstSigFrom
      refine Yields.bind (Yields.lift (yields_validateLengthIndex payload anchor).run) ?_
      intro result validated
      cases result with
      | none => exact ih
      | some recordStart =>
          have within := validated recordStart rfl
          refine Yields.bind (Yields.lift (returns_addUsize
            (payload.add_lt within (by decide)))) ?_
          rintro _ rfl
          refine Yields.bind (payload.yields_getRange recordStart (recordStart + 32)) ?_
          rintro _ ⟨rfl, _, inside⟩
          exact Yields.lift (returns_copyArray_cut payload inside rfl)

/-- The first signature of a bundle is copied from the payload. -/
theorem yields_bundleFirstSig : Yields (bundleFirstSig payload) (CopiedFrom payload) := by
  unfold bundleFirstSig
  refine Yields.bind (yields_readBincodeVarint payload 1) ?_
  rintro ⟨_, bodyStart⟩ ⟨_, inside⟩
  refine Yields.bind (Yields.lift (returns_addUsize (payload.add_lt inside (by decide)))) ?_
  rintro _ rfl
  exact yields_firstSigFrom payload _

/-! ## Payloads -/

theorem returns_trackPayload (assembly : Assembly) (arrival wallMs now : Nat) :
    Returns (trackPayload payload assembly arrival wallMs now) fun _ => True := by
  unfold trackPayload
  split
  · refine Returns.bind (returns_orderingRounds payload _ _) fun rounds _ => ?_
    exact Returns.pure trivial
  split
  · refine Returns.bind (yields_bundleFirstSig payload).run fun result _ => ?_
    cases result with
    | none => exact Returns.pure trivial
    | some sig => exact Returns.pure trivial
  · exact Returns.pure trivial

variable (decompress : Slice → Nat → Option Slice) (body : Slice)

theorem yields_decompressDataFrame :
    Yields (decompressDataFrame decompress body) fun _ => True := by
  unfold decompressDataFrame
  split
  · exact Yields.failure
  next long =>
  refine Yields.bind (Yields.lift (body.returns_byteAt (by omega))) fun first _ => ?_
  refine Yields.bind (Yields.lift (body.returns_byteAt (by omega))) fun second _ => ?_
  refine Yields.bind (Yields.lift (body.returns_byteAt (by omega))) fun third _ => ?_
  refine Yields.bind (Yields.lift (body.returns_byteAt (by omega))) fun fourth _ => ?_
  dsimp only
  split
  · exact Yields.failure
  · refine Yields.bind (Yields.lift (body.returns_range (by omega) (Nat.le_refl _))) ?_
    rintro block _
    exact ⟨_, rfl, fun _ _ => trivial⟩

theorem returns_trackFrame (kind : UInt8) (assembly : Assembly) (arrival wallMs now : Nat) :
    Returns (trackFrame decompress kind body assembly arrival wallMs now) fun _ => True := by
  unfold trackFrame
  split
  · refine Returns.bind (yields_decompressDataFrame decompress body).run fun result _ => ?_
    cases result with
    | none => exact Returns.pure trivial
    | some payload => exact returns_trackPayload payload assembly arrival wallMs now
  split
  · exact returns_trackPayload body assembly arrival wallMs now
  · exact Returns.pure trivial

/-! ## Frames -/

/-- The loop stopped within the buffer; when the stream is in step, less than a frame is left. -/
structure Drained.Settled (buf : Slice) (drained : Drained) : Prop where
  within : drained.offset ≤ buf.length
  left : drained.desync = none → buf.length < drained.offset + (5 + maxFrameBody)

theorem returns_drainFrames (buf : Slice) (arrival wallMs : Nat) (now : Nat → Nat) (fuel : Nat)
    {offset : Nat} (assembly : Assembly) (within : offset ≤ buf.length)
    (enough : buf.length < fuel + offset) :
    Returns (drainFrames decompress buf arrival wallMs now fuel offset assembly)
      (Drained.Settled buf) := by
  induction fuel generalizing offset assembly with
  | zero => omega
  | succ fuel ih =>
      have bound : ∀ {margin}, margin ≤ isizeMax → offset + margin < usizeBound :=
        fun small => buf.add_lt within small
      unfold drainFrames
      refine Returns.bind (returns_subUsize within) ?_
      rintro _ rfl
      split
      · next short =>
          refine Returns.pure ⟨within, fun _ => ?_⟩
          dsimp only
          omega
      refine Returns.bind (buf.returns_byteAt (by omega)) fun first _ => ?_
      refine Returns.bind (returns_addUsize (bound (by decide))) ?_
      rintro _ rfl
      refine Returns.bind (buf.returns_byteAt (by omega)) fun second _ => ?_
      refine Returns.bind (returns_addUsize (bound (by decide))) ?_
      rintro _ rfl
      refine Returns.bind (buf.returns_byteAt (by omega)) fun third _ => ?_
      refine Returns.bind (returns_addUsize (bound (by decide))) ?_
      rintro _ rfl
      refine Returns.bind (buf.returns_byteAt (by omega)) fun fourth _ => ?_
      dsimp only
      generalize fromBe [first, second, third, fourth] = bodyLen
      split
      · exact Returns.pure ⟨within, nofun⟩
      next small =>
      have total : 5 + bodyLen ≤ isizeMax :=
        Nat.le_trans (Nat.add_le_add_left (Nat.le_of_not_lt small) 5) (by decide)
      refine Returns.bind (returns_addUsize
        (Nat.lt_of_le_of_lt total (by decide))) ?_
      rintro _ rfl
      split
      · next partly =>
          refine Returns.pure ⟨within, fun _ => ?_⟩
          dsimp only
          omega
      next whole =>
      refine Returns.bind (returns_addUsize (bound (by decide))) ?_
      rintro _ rfl
      refine Returns.bind (buf.returns_byteAt (by omega)) fun kind _ => ?_
      refine Returns.bind (returns_addUsize (bound (by decide))) ?_
      rintro _ rfl
      refine Returns.bind (returns_addUsize (bound total)) ?_
      rintro _ rfl
      refine Returns.bind (buf.returns_range (by omega) (by omega)) fun body _ => ?_
      refine Returns.bind (returns_trackFrame decompress body kind assembly _ _ _) ?_
      intro tracked _
      refine Returns.bind (returns_addUsize (bound total)) ?_
      rintro _ rfl
      exact ih tracked (by omega) (by omega)

/-- What is left after the frames: less than one frame, when the stream is in step. -/
theorem returns_consumeFrames (buf : Slice) (assembly : Assembly) (arrival wallMs : Nat)
    (now : Nat → Nat) :
    Returns (consumeFrames decompress buf assembly arrival wallMs now) fun result =>
      result.2.2 = none → result.1.length < 5 + maxFrameBody := by
  unfold consumeFrames
  refine Returns.bind (returns_drainFrames decompress buf arrival wallMs now _ assembly
    (Nat.zero_le _) (by omega)) ?_
  rintro ⟨offset, tracked, desync⟩ ⟨within, left⟩
  cases desync with
  | some error => exact Returns.pure nofun
  | none =>
      refine Returns.bind (buf.returns_range within (Nat.le_refl _)) ?_
      rintro _ rfl
      refine Returns.pure fun _ => ?_
      have short := left rfl
      have length : (buf.cut offset buf.length).length = buf.length - offset :=
        buf.length_cut (Nat.le_refl _)
      dsimp only at short ⊢
      rw [length]
      omega

theorem returns_readAll (reads : List Read) {buf : Slice} (assembly : Assembly)
    (short : buf.length < 5 + maxFrameBody) :
    Returns (readAll decompress reads buf assembly) fun _ => True := by
  induction reads generalizing buf assembly with
  | nil => exact Returns.pure trivial
  | cons read rest ih =>
      have room : buf.length + read.chunk.length ≤ isizeMax :=
        Nat.le_trans (Nat.add_le_add short.le read.fits) (by decide)
      unfold readAll
      refine Returns.bind (buf.returns_extend room) fun both _ => ?_
      refine Returns.bind (returns_consumeFrames decompress both _ _ _ _) ?_
      rintro ⟨left, tracked, desync⟩ settled
      cases desync with
      | some error => exact Returns.pure trivial
      | none => exact ih tracked (settled rfl)

/-- Whatever a peer sends, however it is split into reads and whatever the assembly holds,
the parsers do not panic, and the headers and signatures they produce are bytes of the
payload. -/
theorem wire_input_never_panics (assembly : Assembly) :
    (∀ reads, ∃ outcome, readAll decompress reads Slice.empty assembly = .ok outcome) ∧
    (∀ buf arrival wallMs now, ∃ outcome,
      consumeFrames decompress buf assembly arrival wallMs now = .ok outcome) ∧
    (∀ payload roundLo roundHi, ∃ headers,
      findBlockRecords payload roundLo roundHi = .ok headers ∧
        ∀ header ∈ headers, header.CopiedFrom payload) ∧
    (∀ payload anchor window, ∃ rounds, orderingRounds payload anchor window = .ok rounds) ∧
    (∀ payload, ∃ found, (bundleFirstSig payload).run = .ok found ∧
      ∀ sig, found = some sig → CopiedFrom payload sig) := by
  refine ⟨fun reads => ?_, fun buf arrival wallMs now => ?_, fun payload roundLo roundHi => ?_,
    fun payload anchor window => ?_, fun payload => yields_bundleFirstSig payload⟩
  · have empty : Slice.empty.length < 5 + maxFrameBody := by decide
    obtain ⟨outcome, ran, _⟩ := returns_readAll decompress reads assembly empty
    exact ⟨outcome, ran⟩
  · obtain ⟨outcome, ran, _⟩ := returns_consumeFrames decompress buf assembly arrival wallMs now
    exact ⟨outcome, ran⟩
  · obtain ⟨headers, ran, found⟩ := returns_findBlockRecords payload roundLo roundHi
    exact ⟨headers, ran, fun header member => found.copied payload member⟩
  · obtain ⟨rounds, ran, _⟩ := returns_orderingRounds payload anchor window
    exact ⟨rounds, ran⟩

end MarketBenchmark.Peering
