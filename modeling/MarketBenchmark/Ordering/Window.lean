import MarketBenchmark.Ordering.Blocks

/-!
# Rounds and the window of the anchor

The scan and the parent slot are held to the window; the own record is not
compared with it.  It is one round past the parent slot, so it leaves the
window exactly when the parent slot is at the window's upper end.
-/

namespace MarketBenchmark

open Foundation.Panics
open Foundation.Endian
open Foundation.Streams

variable (payload : Slice)

/-- `|round - anchor| ≤ window` -/
def Near (anchor window round : Nat) : Prop := round - anchor + (anchor - round) ≤ window

/-- The locator adds an own record: one index alone passes, with a nonzero count byte. -/
def OwnLocated (slot : Slot) : Prop :=
  ∃ idx byte, (∀ other, Passes payload slot other ↔ idx = other) ∧
    payload.bytes[idx]? = some byte ∧ byte ≠ 0

/-- The parent slot is at the upper end of the window, the own record is located, and its
round does not wrap to one that is near again. -/
structure Escapes (anchor window : Nat) (slot : Slot) : Prop where
  parsed : (parseSlot payload).run = .ok (some slot)
  current : slot.legacy = false
  highest : slot.header.round = highestRound anchor window
  located : OwnLocated payload slot
  wraps : ¬(slot.header.round + 1 = u32Bound ∧ anchor ≤ window)

theorem highestRound_eq (anchor window : Nat) :
    highestRound anchor window = min (anchor + window) (u32Bound - 1) := by
  unfold highestRound u32Bound
  omega

theorem near_of_between {anchor window round : Nat} (fits : anchor < u32Bound)
    (notBefore : lowestRound anchor window ≤ round)
    (notAfter : round ≤ highestRound anchor window) : Near anchor window round := by
  rw [highestRound_eq] at notAfter
  unfold lowestRound at notBefore
  unfold Near
  omega

/-- The own record's round, one past a slot in the window. -/
theorem near_wrappingSucc_iff {anchor window round : Nat} (fits : anchor < u32Bound)
    (notBefore : lowestRound anchor window ≤ round)
    (notAfter : round ≤ highestRound anchor window) :
    Near anchor window (wrappingSucc round) ↔
      (round = highestRound anchor window → round + 1 = u32Bound ∧ anchor ≤ window) := by
  have bound : u32Bound = 2 ^ 32 := rfl
  rw [highestRound_eq] at notAfter ⊢
  unfold lowestRound at notBefore
  unfold Near wrappingSucc
  rcases Nat.lt_or_ge (round + 1) u32Bound with small | wraps
  · rw [Nat.mod_eq_of_lt small]
    omega
  · have last : round + 1 = u32Bound := by omega
    rw [last, Nat.mod_self]
    omega

theorem AddsOwn.located {slot : Slot} {all : List BlockHeader}
    (adds : AddsOwn payload slot all) : OwnLocated payload slot := by
  obtain ⟨idx, own, unique, stands, present, _⟩ := adds
  obtain ⟨byte, found, count⟩ := stands.count
  refine ⟨idx, byte, unique, found, ?_⟩
  rintro rfl
  exact present (List.length_eq_zero_iff.mp count.symm)

theorem AddsNone.not_located {slot : Slot} {all : List BlockHeader}
    (adds : AddsNone payload slot all) : ¬OwnLocated payload slot := by
  rintro ⟨idx, byte, unique, found, nonzero⟩
  exact nonzero (Option.some.inj (found.symm.trans (adds.2 idx unique)))

/-- A slot that escapes is in the window, and it gives an own record out of it. -/
theorem Escapes.far {anchor window : Nat} {slot : Slot}
    (escapes : Escapes payload anchor window slot) (positive : 1 ≤ anchor)
    (fits : anchor < u32Bound) :
    ∃ rounds, orderingRounds payload anchor window = .ok rounds ∧
      ∃ round ∈ rounds, ¬Near anchor window round.1 := by
  obtain ⟨rounds, ran, records, rfl, found⟩ := returns_orderingRounds payload anchor window
  have lowest : lowestRound anchor window ≤ slot.header.round := by
    rw [escapes.highest, highestRound_eq]
    unfold lowestRound
    omega
  obtain ⟨result, same, facts⟩ := yields_parseSlot payload
  rw [escapes.parsed] at same
  obtain ⟨inside, copied, small⟩ := facts slot (Except.ok.inj same).symm
  have window : InWindow payload (lowestRound anchor window) (highestRound anchor window) slot :=
    ⟨escapes.parsed, escapes.current, lowest, escapes.highest.le, inside, copied, small⟩
  refine ⟨_, ran, ?_⟩
  rcases found (Nat.ne_of_gt positive) with ⟨none, _⟩ | ⟨other, otherWindow, adds⟩
  · exact absurd window (none slot)
  · cases otherWindow.parsed.symm.trans escapes.parsed
    rcases adds with addsNone | ⟨_, own, _, stands, _, _, rfl⟩
    · exact absurd escapes.located (addsNone.not_located payload)
    · refine ⟨_, List.mem_map_of_mem (List.mem_append_right _ List.mem_cons_self), ?_⟩
      dsimp only
      rw [stands.round, near_wrappingSucc_iff fits lowest escapes.highest.le]
      exact fun near => escapes.wraps (near escapes.highest)

/-- Every round is within the window of the anchor exactly when no slot escapes. -/
theorem ordering_rounds_near_iff {anchor : Nat} (window : Nat) (positive : 1 ≤ anchor)
    (fits : anchor < u32Bound) :
    (∀ rounds, orderingRounds payload anchor window = .ok rounds →
      ∀ round ∈ rounds, Near anchor window round.1 ∧ 1 ≤ round.2) ↔
        ∀ slot, ¬Escapes payload anchor window slot := by
  constructor
  · intro near slot escapes
    obtain ⟨rounds, ran, round, member, far⟩ := escapes.far payload positive fits
    exact far (near rounds ran round member).1
  · intro stays rounds ran round member
    obtain ⟨others, same, records, rfl, found⟩ := returns_orderingRounds payload anchor window
    cases ran.symm.trans same
    obtain ⟨header, isRecord, rfl⟩ := List.mem_map.mp member
    rcases found (Nat.ne_of_gt positive) with ⟨_, marked⟩ | ⟨slot, inWindow, adds⟩
    · have mark := marked header isRecord
      exact ⟨near_of_between fits mark.notBefore mark.notAfter,
        List.length_pos_iff.mpr mark.present⟩
    have parentNear : ∀ {header}, header ∈ slot.records →
        Near anchor window header.round ∧ 1 ≤ header.txHashes.length := by
      intro header isParent
      obtain ⟨present, rfl⟩ := mem_slot_records.mp isParent
      exact ⟨near_of_between fits inWindow.notBefore inWindow.notAfter,
        List.length_pos_iff.mpr present⟩
    rcases adds with ⟨rfl, _⟩ | addsOwn
    · exact parentNear isRecord
    · have located := addsOwn.located payload
      obtain ⟨_, own, _, stands, present, _, rfl⟩ := addsOwn
      rcases List.mem_append.mp isRecord with isParent | isOwn
      · exact parentNear isParent
      · rw [List.mem_singleton.mp isOwn]
        refine ⟨?_, List.length_pos_iff.mpr present⟩
        dsimp only
        rw [stands.round, near_wrappingSucc_iff fits inWindow.notBefore inWindow.notAfter]
        intro highest
        by_contra far
        exact stays slot ⟨inWindow.parsed, inWindow.current, highest, located, far⟩

/-- The only own record of the sample frame stands where its opening byte is. -/
theorem sampleFrame_escapes : Escapes sampleFrame 100 1 sampleSlot where
  parsed := by decide +kernel
  current := rfl
  highest := by decide
  located := by
    have only : ∀ j < 171, sampleFrame.bytes[j]? = some 0xfd → j = 85 := by decide +kernel
    have passes : Passes sampleFrame sampleSlot 115 :=
      sampleOwn_genuineAt.passes sampleFrame (by decide) (by decide)
    refine ⟨115, 1, fun other => ⟨fun otherPasses => ?_, ?_⟩, by decide +kernel, by decide⟩
    · obtain ⟨stop, count, tailLen, otherPasses⟩ := otherPasses
      have openingAt := otherPasses.qualifies.opening
      have preceded := otherPasses.qualifies.preceded
      have within := sampleFrame.lt_of_getElem?_eq_some openingAt
      have length : sampleFrame.length = 170 := by decide +kernel
      have here := only (other - 30) (by omega) openingAt
      omega
    · rintro rfl
      exact passes
  wraps := by decide

/-- The parent slot of round 101 is in the window of anchor 100, its own record is not. -/
theorem ordering_rounds_far : ∃ rounds, orderingRounds sampleFrame 100 1 = .ok rounds ∧
    ∃ round ∈ rounds, ¬Near 100 1 round.1 :=
  sampleFrame_escapes.far sampleFrame (by decide) (by decide)

/-- With the window 2 the slot is not at its upper end, and its own record is near. -/
theorem ordering_rounds_near_sample :
    orderingRounds sampleFrame 100 2 = .ok [(101, 1), (102, 1)] ∧
      ∀ round ∈ [(101, 1), (102, 1)], Near 100 2 round.1 ∧ 1 ≤ round.2 := by
  have ran : orderingRounds sampleFrame 100 2 = .ok [(101, 1), (102, 1)] := by decide +kernel
  refine ⟨ran, (ordering_rounds_near_iff sampleFrame 2 (by decide) (by decide)).mpr ?_ _ ran⟩
  intro slot escapes
  cases sampleFrame_escapes.parsed.symm.trans escapes.parsed
  exact absurd escapes.highest (by decide)

end MarketBenchmark
