import MarketBenchmark.Ordering.OwnRecord

/-!
# All records of a payload

The structural parse and the marker scan together: on every payload and in
every window they end without a panic, and every header that they return is
copied from bytes of the payload.
-/

namespace MarketBenchmark

open Foundation.Panics
open Foundation.Endian

variable (payload : Slice)

/-! ## The marker scan -/

/-- A header that the scan found: copied from the payload, with a round in the window and
some hashes. -/
structure BlockHeader.Marked (payload : Slice) (roundLo roundHi : Nat) (header : BlockHeader) :
    Prop where
  copied : header.CopiedFrom payload
  notBefore : roundLo ≤ header.round
  notAfter : header.round ≤ roundHi
  present : header.txHashes ≠ []

theorem yields_markedRecord (roundLo roundHi : Nat) {p : Nat} (preceded : 20 ≤ p)
    (inside : p + 5 ≤ payload.length) :
    Yields (markedRecord payload roundLo roundHi p) fun read =>
      p < read.2 ∧ read.2 ≤ payload.length ∧ read.1.Marked payload roundLo roundHi := by
  have fits : ∀ {margin}, margin ≤ isizeMax → p + margin < usizeBound :=
    fun small => payload.add_lt (by omega) small
  unfold markedRecord
  refine Yields.bind (Yields.lift (payload.returns_byteAt (by omega))) fun tag _ => ?_
  split
  · exact Yields.failure
  refine Yields.bind (Yields.lift (returns_addUsize (fits (by decide)))) ?_
  rintro _ rfl
  refine Yields.bind (Yields.lift (payload.returns_byteAt (by omega))) fun first _ => ?_
  refine Yields.bind (Yields.lift (returns_addUsize (fits (by decide)))) ?_
  rintro _ rfl
  refine Yields.bind (Yields.lift (payload.returns_byteAt (by omega))) fun second _ => ?_
  refine Yields.bind (Yields.lift (returns_addUsize (fits (by decide)))) ?_
  rintro _ rfl
  refine Yields.bind (Yields.lift (payload.returns_byteAt (by omega))) fun third _ => ?_
  refine Yields.bind (Yields.lift (returns_addUsize (fits (by decide)))) ?_
  rintro _ rfl
  refine Yields.bind (Yields.lift (payload.returns_byteAt (by omega))) fun fourth _ => ?_
  dsimp only
  split
  · exact Yields.failure
  next window =>
  rw [not_not] at window
  refine Yields.bind (Yields.lift (returns_addUsize (fits (by decide)))) ?_
  rintro _ rfl
  refine Yields.bind (yields_readVarint payload (p + 5)) ?_
  rintro ⟨count, k⟩ ⟨after, within⟩
  dsimp only at after within ⊢
  split
  · exact Yields.failure
  next few =>
  rw [not_not] at few
  refine Yields.bind (Yields.lift (returns_mulUsize (by unfold usizeBound; omega))) ?_
  rintro _ rfl
  have small : count * 32 ≤ isizeMax := Nat.le_trans (Nat.mul_le_mul_right 32 few.2) (by decide)
  refine Yields.bind (Yields.lift (returns_addUsize (payload.add_lt within small))) ?_
  rintro _ rfl
  split
  · exact Yields.failure
  next room =>
  refine Yields.bind (Yields.lift (returns_subUsize preceded)) ?_
  rintro _ rfl
  refine Yields.bind (Yields.lift (payload.returns_range (by omega) (by omega))) ?_
  rintro _ rfl
  refine Yields.bind (Yields.lift (returns_copyArray_cut payload (by omega) (by omega))) ?_
  intro proposer proposerCopied
  refine Yields.bind (Yields.lift (returns_copyHashes payload count (by omega))) ?_
  rintro txHashes ⟨size, copied⟩
  have present : txHashes ≠ [] := by
    rintro rfl
    exact absurd size (Nat.ne_of_lt few.1)
  exact Yields.pure ⟨by dsimp only; omega, Nat.le_of_not_lt room,
    ⟨proposerCopied, copied⟩, window.1, window.2, present⟩

/-- The scan moves on in every round, so it stops within its bound. -/
theorem returns_scanFrom (roundLo roundHi fuel : Nat) {p : Nat} {out : List BlockHeader}
    (preceded : 20 ≤ p) (near : p ≤ payload.length + 20) (enough : payload.length + 20 < fuel + p)
    (marked : ∀ header ∈ out, header.Marked payload roundLo roundHi) :
    Returns (scanFrom payload roundLo roundHi fuel p out) fun all =>
      ∀ header ∈ all, header.Marked payload roundLo roundHi := by
  induction fuel generalizing p out with
  | zero => omega
  | succ fuel ih =>
      have bound := payload.length_add_lt (show 26 ≤ isizeMax by decide)
      unfold scanFrom
      refine Returns.bind (returns_addUsize (by omega)) ?_
      rintro _ rfl
      split
      · next inside =>
          refine Returns.bind (yields_markedRecord payload roundLo roundHi preceded inside).run ?_
          intro result found
          cases result with
          | none =>
              refine Returns.bind (returns_addUsize (by omega)) ?_
              rintro _ rfl
              exact ih (by omega) (by omega) (by omega) marked
          | some read =>
              obtain ⟨header, next⟩ := read
              obtain ⟨after, within, headerMarked⟩ := found (header, next) rfl
              dsimp only at after within headerMarked ⊢
              refine ih (by omega) (by omega) (by omega) ?_
              intro other member
              rcases List.mem_append.mp member with old | new
              · exact marked other old
              · rw [List.mem_singleton.mp new]
                exact headerMarked
      · exact Returns.pure marked

theorem returns_scanBlockRecords (roundLo roundHi : Nat) :
    Returns (scanBlockRecords payload roundLo roundHi) fun all =>
      ∀ header ∈ all, header.Marked payload roundLo roundHi :=
  returns_scanFrom payload roundLo roundHi _ (Nat.le_refl 20) (by omega) (by omega) nofun

/-! ## Both together -/

/-- The payload parses in the new layout, with its parent slot in the window. -/
structure InWindow (roundLo roundHi : Nat) (slot : Slot) : Prop where
  parsed : (parseSlot payload).run = .ok (some slot)
  current : slot.legacy = false
  notBefore : roundLo ≤ slot.header.round
  notAfter : slot.header.round ≤ roundHi
  inside : slot.stop ≤ payload.length
  copied : slot.header.CopiedFrom payload
  fits : slot.header.round < u32Bound

/-- What all records of a payload are: those that the scan marks, or those of a parent slot
in the window. -/
def FoundRecords (roundLo roundHi : Nat) (all : List BlockHeader) : Prop :=
  ((∀ slot, ¬InWindow payload roundLo roundHi slot) ∧
    ∀ header ∈ all, header.Marked payload roundLo roundHi) ∨
  ∃ slot, InWindow payload roundLo roundHi slot ∧
    (AddsNone payload slot all ∨ AddsOwn payload slot all)

theorem returns_findBlockRecords (roundLo roundHi : Nat) :
    Returns (findBlockRecords payload roundLo roundHi)
      (FoundRecords payload roundLo roundHi) := by
  obtain ⟨result, ran, facts⟩ := yields_parseSlot payload
  unfold findBlockRecords
  rw [bind_of_ok ran]
  -- the scan runs when the payload does not parse in the new layout
  have scans : (∀ slot, ¬InWindow payload roundLo roundHi slot) →
      Returns (scanBlockRecords payload roundLo roundHi)
        (FoundRecords payload roundLo roundHi) :=
    fun none => (returns_scanBlockRecords payload roundLo roundHi).mono
      fun all marked => Or.inl ⟨none, marked⟩
  have same : ∀ {slot}, InWindow payload roundLo roundHi slot → result = some slot :=
    fun window => Except.ok.inj (ran.symm.trans window.parsed)
  cases result with
  | none => exact scans fun slot window => nomatch same window
  | some slot =>
      obtain ⟨inside, copied, fits⟩ := facts slot rfl
      dsimp only
      split
      · next legacy =>
          refine scans fun other window => ?_
          cases same window
          exact absurd window.current (by rw [legacy]; decide)
      split
      · next outside =>
          refine Returns.pure (Or.inl ⟨fun other window => ?_, nofun⟩)
          cases same window
          have notBefore := window.notBefore
          have notAfter := window.notAfter
          omega
      · next current within =>
          refine (returns_tailedRecords payload slot inside).mono fun all adds => Or.inr ?_
          exact ⟨slot, ⟨ran, Bool.eq_false_of_not_eq_true current, by omega, by omega, inside,
            copied, fits⟩, adds⟩

theorem mem_slot_records {slot : Slot} {header : BlockHeader} :
    header ∈ slot.records ↔ slot.header.txHashes ≠ [] ∧ header = slot.header := by
  unfold Slot.records
  split
  · next empty => exact ⟨nofun, fun present => absurd empty present.1⟩
  · next present => exact ⟨fun member => ⟨present, List.mem_singleton.mp member⟩,
      fun same => List.mem_singleton.mpr same.2⟩

/-- Every record that was found is copied from the payload. -/
theorem FoundRecords.copied {roundLo roundHi : Nat} {all : List BlockHeader}
    (found : FoundRecords payload roundLo roundHi all) {header : BlockHeader}
    (member : header ∈ all) : header.CopiedFrom payload := by
  rcases found with ⟨_, marked⟩ | ⟨slot, window, ⟨rfl, _⟩ | ⟨_, own, _, _, _, ownCopied, rfl⟩⟩
  · exact (marked header member).copied
  · rw [(mem_slot_records.mp member).2]
    exact window.copied
  · rcases List.mem_append.mp member with parent | isOwn
    · rw [(mem_slot_records.mp parent).2]
      exact window.copied
    · rw [List.mem_singleton.mp isOwn]
      exact ownCopied

/-- The rounds that the window of an anchor reaches down and up to. -/
def lowestRound (anchor window : Nat) : Nat := min (anchor - window) (u32Bound - 1)

def highestRound (anchor window : Nat) : Nat :=
  min (min (anchor + window) (2 ^ 64 - 1)) (u32Bound - 1)

/-- The rounds and bundle counts are those of the records found in the anchor's window. -/
theorem returns_orderingRounds (anchor window : Nat) :
    Returns (orderingRounds payload anchor window) fun rounds => ∃ records : List BlockHeader,
      rounds = records.map (fun record => (record.round, record.txHashes.length)) ∧
        (anchor ≠ 0 → FoundRecords payload (lowestRound anchor window)
          (highestRound anchor window) records) := by
  unfold orderingRounds
  split
  · next unset => exact Returns.pure ⟨[], rfl, fun set => absurd unset set⟩
  · refine Returns.bind (returns_findBlockRecords payload _ _) fun records found => ?_
    exact Returns.pure ⟨records, rfl, fun _ => found⟩

end MarketBenchmark
