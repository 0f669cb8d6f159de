import MarketBenchmark.Ordering.Search
import MarketBenchmark.Ordering.Layout

/-!
# The own record

The own-record locator against the structural check that it searches by: it
adds a record exactly when one index of the payload passes the check, and that
record is the one that stands there.
-/

namespace MarketBenchmark

open Foundation.Panics
open Foundation.Endian
open Foundation.Streams

variable (payload : Slice) (slot : Slot)

/-! ## Indices that pass the check -/

/-- The structural check at `idx`: the count byte of a record whose tail has the given
length and ends at `stop`, past the slot, with the slot's activation. -/
structure PassesUpTo (stop count tailLen idx : Nat) : Prop where
  after : slot.stop + 10 ≤ stop
  within : stop ≤ payload.length
  endsTail : EndsTail payload (toLe 4 slot.activation) (wrappingSub slot.header.round tailTcMax)
    slot.header.round (stop - 10)
  small : count ≤ 250
  shortest : 20 ≤ tailLen
  longest : tailLen ≤ recordTailMax
  qualifies : Qualifies payload slot (wrappingSucc slot.header.round) (stop, count, tailLen) idx

/-- The index passes the structural check of the own-record locator. -/
def Passes (idx : Nat) : Prop :=
  ∃ stop count tailLen, PassesUpTo payload slot stop count tailLen idx

/-- The record of the own round whose count byte stands at `idx`. -/
structure StandsAt (idx : Nat) (own : BlockHeader) : Prop where
  proposer : own.proposer.toList = (payload.cut (idx - 20) idx).bytes
  round : own.round = wrappingSucc slot.header.round
  count : ∃ byte, payload.bytes[idx]? = some byte ∧ byte.toNat = own.txHashes.length
  txHashes : copyHashes payload own.txHashes.length (idx + 1) = .ok own.txHashes

/-- The search over all ends past the slot hits the indices that pass. -/
theorem hit_iff_passes {ends : List Nat}
    (all : ∀ stop, stop ∈ ends ↔ stop ∈ [] ∨ stop ≤ payload.length ∧ ∃ i, slot.stop ≤ i ∧
      i + 10 = stop ∧ EndsTail payload (toLe 4 slot.activation)
        (wrappingSub slot.header.round tailTcMax) slot.header.round i) (idx : Nat) :
    Hit payload slot (wrappingSucc slot.header.round) (searchSpace ends) none idx ↔
      Passes payload slot idx := by
  constructor
  · rintro (impossible | ⟨⟨stop, count, tailLen⟩, member, qualifies⟩)
    · cases impossible
    · obtain ⟨isEnd, small, shortest, longest⟩ := mem_searchSpace.mp member
      rcases (all stop).mp isEnd with impossible | ⟨within, i, after, rfl, endsTail⟩
      · exact absurd impossible List.not_mem_nil
      · exact ⟨i + 10, count, tailLen, by omega, within, endsTail, small, shortest, longest,
          qualifies⟩
  · rintro ⟨stop, count, tailLen, passes⟩
    have after := passes.after
    have isEnd : stop ∈ ends :=
      (all stop).mpr (Or.inr ⟨passes.within, stop - 10, by omega, by omega, passes.endsTail⟩)
    exact Or.inr ⟨(stop, count, tailLen),
      mem_searchSpace.mpr ⟨isEnd, passes.small, passes.shortest, passes.longest⟩,
      passes.qualifies⟩

/-! ## What the locator adds -/

/-- The locator adds nothing, and no index alone passes with a nonzero count byte. -/
def AddsNone (records : List BlockHeader) : Prop :=
  records = slot.records ∧
    ∀ idx, (∀ other, Passes payload slot other ↔ idx = other) → payload.bytes[idx]? = some 0

/-- The locator adds the record at the only index that passes. -/
def AddsOwn (records : List BlockHeader) : Prop :=
  ∃ idx own, (∀ other, Passes payload slot other ↔ idx = other) ∧
    StandsAt payload slot idx own ∧ own.txHashes ≠ [] ∧ own.CopiedFrom payload ∧
    records = slot.records ++ [own]

/-- An index that passes has the hashes of its count byte before the end of the payload. -/
theorem Passes.room {idx : Nat} (passes : Passes payload slot idx) {byte : UInt8}
    (found : payload.bytes[idx]? = some byte) :
    30 ≤ idx ∧ byte.toNat ≤ 250 ∧ idx + 1 + 32 * byte.toNat ≤ payload.length := by
  obtain ⟨stop, count, tailLen, passes⟩ := passes
  obtain ⟨_, counted, same⟩ := passes.qualifies.count
  cases counted.symm.trans found
  have stop_eq : idx + (1 + 32 * count) + tailLen = stop := passes.qualifies.stop_eq
  have within := passes.within
  have small := passes.small
  dsimp only at same
  exact ⟨passes.qualifies.preceded, by omega, by omega⟩

theorem returns_tailedRecords (inside : slot.stop ≤ payload.length) :
    Returns (tailedRecords payload slot) fun records =>
      AddsNone payload slot records ∨ AddsOwn payload slot records := by
  unfold tailedRecords
  refine Returns.bind (returns_tailEnds payload _ _ _ _ [] inside (by omega)) fun ends all => ?_
  have hits := hit_iff_passes payload slot all
  -- without ends the search has no rounds
  split
  · next noEnds =>
      refine Returns.pure (Or.inl ⟨rfl, fun idx unique => ?_⟩)
      have hit := (hits idx).mpr ((unique idx).mpr rfl)
      rw [noEnds] at hit
      rcases hit with impossible | ⟨_, member, _⟩
      · cases impossible
      · exact absurd member List.not_mem_nil
  have bounded : ∀ round ∈ searchSpace ends, round.1 ≤ payload.length ∧ round.2.1 ≤ 250 := by
    rintro ⟨stop, count, tailLen⟩ member
    obtain ⟨isEnd, small, _⟩ := mem_searchSpace.mp member
    rcases (all stop).mp isEnd with impossible | ⟨within, _⟩
    · exact absurd impossible List.not_mem_nil
    · exact ⟨within, small⟩
  refine Returns.bind (returns_searchCount payload slot _ bounded none) fun result found => ?_
  replace found := Reports.congr (fun idx => (hits idx).symm) found
  match result, found with
  | none, found =>
      obtain ⟨first, second, differ, firstPasses, secondPasses⟩ := found
      refine Returns.pure (Or.inl ⟨rfl, fun idx unique => ?_⟩)
      have same := ((unique first).mp firstPasses).symm.trans ((unique second).mp secondPasses)
      exact absurd same differ
  | some none, found =>
      refine Returns.pure (Or.inl ⟨rfl, fun idx unique => ?_⟩)
      exact absurd ((found idx).mp ((unique idx).mpr rfl)) nofun
  | some (some idx), found =>
      have unique : ∀ other, Passes payload slot other ↔ idx = other := by
        intro other
        rw [found other, Option.some.injEq]
      have passes : Passes payload slot idx := (unique idx).mpr rfl
      have before : idx < payload.length := by
        obtain ⟨stop, count, tailLen, passes⟩ := passes
        obtain ⟨_, counted, _⟩ := passes.qualifies.count
        exact payload.lt_of_getElem?_eq_some counted
      refine Returns.bind (payload.returns_byteAt before) fun count countAt => ?_
      obtain ⟨preceded, small, room⟩ := passes.room payload slot countAt
      split
      · next zero =>
          refine Returns.pure (Or.inl ⟨rfl, fun other alone => ?_⟩)
          rw [(alone idx).mp passes, countAt, zero]
      · next nonzero =>
        refine Returns.bind (returns_addUsize (payload.add_lt before.le (by decide))) ?_
        rintro _ rfl
        obtain ⟨txHashes, copied, size, copiedFrom⟩ :=
          returns_copyHashes payload count.toNat room
        have few : count.toNat ≤ maxBundleHashes := Nat.le_trans small (by decide)
        rw [bind_of_ok (readHashes_run payload few room copied)]
        dsimp only
        refine Returns.bind (returns_subUsize (by omega)) ?_
        rintro _ rfl
        refine Returns.bind (payload.returns_range (by omega) before.le) ?_
        rintro _ rfl
        have width : (payload.cut (idx - 20) idx).bytes.length = 20 := by
          rw [payload.length_cut before.le]
          omega
        refine Returns.bind (returns_copyArray width) fun proposer sameProposer => ?_
        have proposerCopied : CopiedFrom payload proposer := by
          refine ⟨idx - 20, by omega, ?_⟩
          rw [Nat.sub_add_cancel (by omega)]
          exact sameProposer
        have present : txHashes ≠ [] := by
          rintro rfl
          exact nonzero (UInt8.toNat_inj.mp size.symm)
        refine Returns.pure
          (Or.inr ⟨idx, _, unique, ?_, present, ⟨proposerCopied, copiedFrom⟩, rfl⟩)
        refine ⟨sameProposer, rfl, ⟨count, countAt, size.symm⟩, ?_⟩
        rw [← size] at copied
        exact copied

/-! ## A genuine own record -/

/-- The parent that a tail names in its last four bytes. -/
def Tail.qcParent (tail : Tail) : Nat := fromLe (payload.cut (tail.stop - 4) tail.stop).bytes

/-- The tail at `start` closes the record of the own round. -/
structure Tail.Genuine (start : Nat) (tail : Tail) : Prop where
  parsed : (parseTail payload start).run = .ok (some tail)
  activation : tail.activation = slot.activation
  round : tail.round = wrappingSucc slot.header.round
  shortest : start + 20 ≤ tail.stop
  longest : tail.stop ≤ start + recordTailMax
  notBefore : slot.header.round ≤ tail.qcParent payload + tailTcMax
  notAfter : tail.qcParent payload ≤ slot.header.round

/-- A genuine own record from `start` on, past the slot: the byte `fd` and eight more, a
signer byte, the proposer, the count byte, the hashes and the tail. -/
structure GenuineAt (start : Nat) (own : BlockHeader) : Prop where
  after : slot.stop ≤ start
  bytes : ∃ (opening : List UInt8) (signers : UInt8), opening.length = 8 ∧ signers < 0xfb ∧
    OccursAt payload.bytes start (0xfd :: opening ++ signers :: own.proposer.toList ++
      UInt8.ofNat own.txHashes.length :: hashBytes own.txHashes)
  few : own.txHashes.length ≤ 250
  round : own.round = wrappingSucc slot.header.round
  tail : ∃ tail : Tail, tail.Genuine payload slot (start + 31 + 32 * own.txHashes.length)

variable {slot} {start : Nat} {own : BlockHeader}

/-- Where the parts of a genuine record stand. -/
theorem GenuineAt.parts (genuine : GenuineAt payload slot start own) :
    payload.bytes[start]? = some 0xfd ∧
    (∃ signers, payload.bytes[start + 9]? = some signers ∧ signers < 0xfb) ∧
    OccursAt payload.bytes (start + 10) own.proposer.toList ∧
    payload.bytes[start + 30]? = some (UInt8.ofNat own.txHashes.length) ∧
    OccursAt payload.bytes (start + 31) (hashBytes own.txHashes) := by
  obtain ⟨opening, signers, eight, small, occurs⟩ := genuine.bytes
  obtain ⟨occurs, counted⟩ := occursAt_append.mp occurs
  obtain ⟨opened, signed⟩ := occursAt_append.mp occurs
  obtain ⟨signersAt, proposerAt⟩ := occursAt_cons.mp signed
  obtain ⟨countAt, hashesAt⟩ := occursAt_cons.mp counted
  rw [List.length_cons, eight] at signersAt proposerAt
  rw [List.length_append, List.length_cons, List.length_cons, eight, Vector.length_toList]
    at countAt hashesAt
  exact ⟨(occursAt_cons.mp opened).1, ⟨signers, signersAt, small⟩, proposerAt, countAt, hashesAt⟩

theorem GenuineAt.count (genuine : GenuineAt payload slot start own) :
    (UInt8.ofNat own.txHashes.length).toNat = own.txHashes.length := by
  have few := genuine.few
  rw [UInt8.toNat_ofNat']
  omega

theorem GenuineAt.standsAt (genuine : GenuineAt payload slot start own) :
    StandsAt payload slot (start + 30) own := by
  obtain ⟨_, _, proposerAt, countAt, hashesAt⟩ := genuine.parts
  exact
    { proposer := (payload.cut_of_occursAt proposerAt (by rw [Vector.length_toList])).symm
      round := genuine.round
      count := ⟨_, countAt, genuine.count⟩
      txHashes := copyHashes_of_occursAt payload hashesAt }

/-- The last ten bytes of a genuine tail are an end that the locator looks for. -/
theorem Tail.Genuine.endsTail {tail : Tail} (genuine : tail.Genuine payload slot start)
    (within : start ≤ payload.length) (late : tailTcMax ≤ slot.header.round)
    (fits : slot.header.round < u32Bound) : tail.stop ≤ payload.length ∧
      EndsTail payload (toLe 4 slot.activation) (wrappingSub slot.header.round tailTcMax)
        slot.header.round (tail.stop - 10) := by
  obtain ⟨result, ran, closes⟩ := yields_parseTail payload within
  rw [genuine.parsed] at ran
  have closes := closes tail (Except.ok.inj ran).symm
  have after := closes.after
  have inside := closes.within
  have size : (payload.cut (tail.stop - 9) (tail.stop - 5)).bytes.length = 4 := by
    rw [payload.length_cut (by omega)]
    omega
  have activation : (payload.cut (tail.stop - 9) (tail.stop - 5)).bytes
      = toLe 4 slot.activation := by
    rw [← genuine.activation, closes.activation, ← size, toLe_fromLe]
  have earliest : wrappingSub slot.header.round tailTcMax = slot.header.round - tailTcMax := by
    unfold wrappingSub
    unfold tailTcMax u32Bound at *
    omega
  have notBefore := genuine.notBefore
  have notAfter := genuine.notAfter
  unfold Tail.qcParent at notBefore notAfter
  have first : tail.stop - 10 + 1 = tail.stop - 9 := by omega
  have second : tail.stop - 10 + 5 = tail.stop - 5 := by omega
  have third : tail.stop - 10 + 6 = tail.stop - 4 := by omega
  have last : tail.stop - 10 + 10 = tail.stop := by omega
  refine ⟨inside, ⟨closes.activationTag, ?_, ?_, ?_⟩⟩
  · rw [first, second]
    exact activation
  · rw [second]
    exact closes.parentTag
  · rw [third, last, earliest]
    exact ⟨by omega, notAfter⟩

theorem GenuineAt.passes (genuine : GenuineAt payload slot start own)
    (late : tailTcMax ≤ slot.header.round) (fits : slot.header.round < u32Bound) :
    Passes payload slot (start + 30) := by
  obtain ⟨openingAt, signersAt, _, countAt, hashesAt⟩ := genuine.parts
  obtain ⟨tail, tailGenuine⟩ := genuine.tail
  have counted := payload.lt_of_getElem?_eq_some countAt
  have tailStart : start + 31 + 32 * own.txHashes.length ≤ payload.length := by
    cases hashes : own.txHashes with
    | nil => exact counted
    | cons hash rest =>
        rw [hashes] at hashesAt
        have room := hashesAt.length_le
          (List.ne_nil_of_length_pos (by rw [length_hashBytes, List.length_cons]; omega))
        rw [length_hashBytes] at room
        exact room
  obtain ⟨within, endsTail⟩ := tailGenuine.endsTail payload tailStart late fits
  have shortest := tailGenuine.shortest
  have longest := tailGenuine.longest
  have after := genuine.after
  have begins : start + 30 + (1 + 32 * own.txHashes.length)
      = start + 31 + 32 * own.txHashes.length := by omega
  have tailRan : (recordTail payload (start + 31 + 32 * own.txHashes.length)).run
      = .ok (some (slot.activation, wrappingSucc slot.header.round, tail.stop)) := by
    unfold recordTail
    rw [run_bind_of_some tailGenuine.parsed, tailGenuine.activation, tailGenuine.round]
    rfl
  refine ⟨tail.stop, own.txHashes.length,
    tail.stop - (start + 31 + 32 * own.txHashes.length), ?_⟩
  exact
    { after := by omega
      within := within
      endsTail := endsTail
      small := genuine.few
      shortest := by omega
      longest := by omega
      qualifies :=
        { stop_eq := by dsimp only; omega
          preceded := by omega
          count := ⟨_, countAt, genuine.count⟩
          signers := signersAt
          opening := openingAt
          tail := by
            dsimp only
            rw [begins]
            exact tailRan } }

theorem StandsAt.unique {idx : Nat} {first second : BlockHeader}
    (firstStands : StandsAt payload slot idx first)
    (secondStands : StandsAt payload slot idx second) : first = second := by
  obtain ⟨firstProposer, firstRound, ⟨_, firstAt, firstCount⟩, firstHashes⟩ := firstStands
  obtain ⟨secondProposer, secondRound, ⟨_, secondAt, secondCount⟩, secondHashes⟩ := secondStands
  cases firstAt.symm.trans secondAt
  rw [← firstCount] at firstHashes
  rw [← secondCount] at secondHashes
  have proposer : first.proposer = second.proposer :=
    Vector.toList_inj.mp (firstProposer.trans secondProposer.symm)
  have txHashes := Except.ok.inj (firstHashes.symm.trans secondHashes)
  cases first
  cases second
  cases proposer
  cases firstRound.trans secondRound.symm
  cases txHashes
  rfl

/-- Next to a genuine own record the locator adds nothing else: the parent record comes
alone or with the own record, and with it when no other index passes the check. -/
theorem tailedRecords_parent_or_own (parsed : (parseSlot payload).run = .ok (some slot))
    (late : tailTcMax ≤ slot.header.round)
    (genuine : GenuineAt payload slot start own) :
    ∃ records, tailedRecords payload slot = .ok records ∧
      (records = slot.records ∨ records = slot.records ++ [own]) ∧
      (own.txHashes ≠ [] → (∀ idx, Passes payload slot idx → idx = start + 30) →
        records = slot.records ++ [own]) := by
  obtain ⟨result, ran, facts⟩ := yields_parseSlot payload
  rw [parsed] at ran
  obtain ⟨inside, _, fits⟩ := facts slot (Except.ok.inj ran).symm
  have passes := genuine.passes payload late fits
  obtain ⟨records, ran, adds⟩ := returns_tailedRecords payload slot inside
  refine ⟨records, ran, ?_⟩
  rcases adds with ⟨same, onlyEmpty⟩ | ⟨idx, other, unique, stands, _, _, same⟩
  · refine ⟨Or.inl same, fun nonempty alone => ?_⟩
    have zero := onlyEmpty (start + 30) fun idx =>
      ⟨fun passes => (alone idx passes).symm, by rintro rfl; exact passes⟩
    obtain ⟨_, _, _, countAt, _⟩ := genuine.parts
    have count := genuine.count
    rw [Option.some.inj (countAt.symm.trans zero)] at count
    exact absurd (List.length_eq_zero_iff.mp count.symm) nonempty
  · have here := (unique (start + 30)).mp passes
    subst here
    have owns := stands.unique payload genuine.standsAt
    rw [owns] at same
    exact ⟨Or.inr same, fun _ _ => same⟩

/-- A certificate tail with activation round one. -/
def sampleTail (qcParent : Nat) : List UInt8 :=
  0xfc :: toLe 4 0 ++ 0xfc :: toLe 4 0 ++ [0, 0] ++ 0xfc :: toLe 4 1 ++ 0xfc :: toLe 4 qcParent

def sampleHash : Hash32 := Vector.replicate 32 7

/-- A frame whose parent slot is of round 101, with an own record of round 102. -/
def sampleFrame : Slice where
  bytes := List.replicate 10 0 ++ List.replicate 20 1 ++ 1 :: sampleHash.toList ++
    sampleTail 100 ++ 0xfd :: List.replicate 8 0 ++ 2 :: List.replicate 20 3 ++
    1 :: hashBytes [sampleHash] ++ sampleTail 101
  short := by decide +kernel

def sampleSlot : Slot where
  header := { proposer := Vector.replicate 20 1, round := 101, txHashes := [sampleHash] }
  legacy := false
  activation := 1
  stop := 85

def sampleOwn : BlockHeader where
  proposer := Vector.replicate 20 3
  round := 102
  txHashes := [sampleHash]

theorem sampleOwn_genuineAt : GenuineAt sampleFrame sampleSlot 85 sampleOwn where
  after := by decide
  bytes := ⟨List.replicate 8 0, 2, by decide, by decide, by decide +kernel⟩
  few := by decide
  round := by decide
  tail :=
    ⟨{ activation := 1, round := 102, stop := 170 },
      { parsed := by decide +kernel
        activation := rfl
        round := by decide
        shortest := by decide
        longest := by decide
        notBefore := by decide +kernel
        notAfter := by decide +kernel }⟩

theorem tailedRecords_sample :
    ∃ records, tailedRecords sampleFrame sampleSlot = .ok records ∧
      (records = sampleSlot.records ∨ records = sampleSlot.records ++ [sampleOwn]) ∧
      (sampleOwn.txHashes ≠ [] → (∀ idx, Passes sampleFrame sampleSlot idx → idx = 85 + 30) →
        records = sampleSlot.records ++ [sampleOwn]) :=
  tailedRecords_parent_or_own sampleFrame (by decide +kernel) (by decide) sampleOwn_genuineAt

end MarketBenchmark
