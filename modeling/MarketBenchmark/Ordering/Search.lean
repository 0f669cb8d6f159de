import MarketBenchmark.Ordering.Safety

/-!
# The search for the own record

What the three nested loops of the own-record locator find, and that they stop
within the payload: the ends of all tails with the slot's activation, and an
index that passes the structural check, unless two do.
-/

namespace MarketBenchmark

open Foundation.Panics
open Foundation.Endian
open Foundation.Streams

variable (payload : Slice)

/-! ## Ends of tails -/

/-- The ten bytes at `j` read `[fc activation][fc parent]` with the parent in the window. -/
structure EndsTail (activation : List UInt8) (loParent hiParent j : Nat) : Prop where
  activationTag : payload.bytes[j]? = some 0xfc
  activation : (payload.cut (j + 1) (j + 5)).bytes = activation
  parentTag : payload.bytes[j + 5]? = some 0xfc
  inWindow : loParent ≤ fromLe (payload.cut (j + 6) (j + 10)).bytes ∧
    fromLe (payload.cut (j + 6) (j + 10)).bytes ≤ hiParent

/-- Four bytes read one by one are the bytes of the range. -/
theorem cut_four {j : Nat} {first second third fourth : UInt8}
    (firstAt : payload.bytes[j]? = some first) (secondAt : payload.bytes[j + 1]? = some second)
    (thirdAt : payload.bytes[j + 2]? = some third)
    (fourthAt : payload.bytes[j + 3]? = some fourth) :
    (payload.cut j (j + 4)).bytes = [first, second, third, fourth] := by
  unfold Slice.cut
  dsimp only
  rw [List.drop_take, Nat.add_sub_cancel_left]
  rw [payload.drop_of_some firstAt, payload.drop_of_some secondAt, payload.drop_of_some thirdAt,
    payload.drop_of_some fourthAt]
  rfl

theorem returns_isTailEnd (activation : List UInt8) (loParent hiParent : Nat) {j : Nat}
    (within : j + 10 ≤ payload.length) :
    Returns (isTailEnd payload activation loParent hiParent j) fun isEnd =>
      isEnd = true ↔ EndsTail payload activation loParent hiParent j := by
  have fits : ∀ {margin}, margin ≤ isizeMax → j + margin < usizeBound :=
    fun small => payload.add_lt (by omega) small
  unfold isTailEnd
  refine Returns.bind (payload.returns_byteAt (by omega)) fun tag tagAt => ?_
  split
  · next wrong =>
      refine Returns.pure ⟨nofun, fun ends => ?_⟩
      cases tagAt.symm.trans ends.activationTag
      exact absurd rfl wrong
  next rightTag =>
  refine Returns.bind (returns_addUsize (fits (by decide))) ?_
  rintro _ rfl
  refine Returns.bind (returns_addUsize (fits (by decide))) ?_
  rintro _ rfl
  refine Returns.bind (payload.returns_range (by omega) (by omega)) ?_
  rintro _ rfl
  split
  · next wrong => exact Returns.pure ⟨nofun, fun ends => absurd ends.activation wrong⟩
  next rightActivation =>
  refine Returns.bind (returns_addUsize (fits (by decide))) ?_
  rintro _ rfl
  refine Returns.bind (payload.returns_byteAt (by omega)) fun parentTag parentTagAt => ?_
  split
  · next wrong =>
      refine Returns.pure ⟨nofun, fun ends => ?_⟩
      cases parentTagAt.symm.trans ends.parentTag
      exact absurd rfl wrong
  next rightParentTag =>
  refine Returns.bind (returns_addUsize (fits (by decide))) ?_
  rintro _ rfl
  refine Returns.bind (payload.returns_byteAt (by omega)) fun first firstAt => ?_
  refine Returns.bind (returns_addUsize (fits (by decide))) ?_
  rintro _ rfl
  refine Returns.bind (payload.returns_byteAt (by omega)) fun second secondAt => ?_
  refine Returns.bind (returns_addUsize (fits (by decide))) ?_
  rintro _ rfl
  refine Returns.bind (payload.returns_byteAt (by omega)) fun third thirdAt => ?_
  refine Returns.bind (returns_addUsize (fits (by decide))) ?_
  rintro _ rfl
  refine Returns.bind (payload.returns_byteAt (by omega)) fun fourth fourthAt => ?_
  have parent : (payload.cut (j + 6) (j + 10)).bytes = [first, second, third, fourth] :=
    cut_four payload firstAt secondAt thirdAt fourthAt
  refine Returns.pure ?_
  rw [decide_eq_true_iff, ← parent]
  constructor
  · intro window
    rw [not_not] at rightTag rightActivation rightParentTag
    rw [rightTag] at tagAt
    rw [rightParentTag] at parentTagAt
    exact ⟨tagAt, rightActivation, parentTagAt, window⟩
  · exact fun ends => ends.inWindow

/-- The loop over tail ends stops within its bound, with every end in the payload. -/
theorem returns_tailEnds (activation : List UInt8) (loParent hiParent : Nat) (fuel : Nat)
    {j : Nat} (ends : List Nat) (within : j ≤ payload.length)
    (enough : payload.length < fuel + j) :
    Returns (tailEnds payload activation loParent hiParent fuel j ends) fun all =>
      ∀ stop, stop ∈ all ↔ stop ∈ ends ∨ stop ≤ payload.length ∧ ∃ i, j ≤ i ∧ i + 10 = stop ∧
        EndsTail payload activation loParent hiParent i := by
  induction fuel generalizing j ends with
  | zero => omega
  | succ fuel ih =>
      unfold tailEnds
      refine Returns.bind (returns_addUsize (payload.add_lt within (by decide))) ?_
      rintro _ rfl
      split
      · next fits =>
          refine Returns.bind (returns_isTailEnd payload activation loParent hiParent fits) ?_
          intro isEnd endsHere
          refine Returns.bind (returns_addUsize (payload.add_lt within (by decide))) ?_
          rintro _ rfl
          refine (ih (if isEnd then ends ++ [j + 10] else ends) (by omega) (by omega)).mono ?_
          intro all found stop
          rw [found stop]
          constructor
          · rintro (member | ⟨stops, i, after, same, endsTail⟩)
            · split at member
              · next isEnd =>
                  rcases List.mem_append.mp member with old | new
                  · exact Or.inl old
                  · rw [List.mem_singleton.mp new]
                    exact Or.inr ⟨fits, j, Nat.le_refl j, rfl, endsHere.mp isEnd⟩
              · exact Or.inl member
            · exact Or.inr ⟨stops, i, by omega, same, endsTail⟩
          · rintro (member | ⟨stops, i, after, same, endsTail⟩)
            · refine Or.inl ?_
              split
              · exact List.mem_append_left _ member
              · exact member
            · rcases Nat.eq_or_lt_of_le after with rfl | later
              · refine Or.inl ?_
                rw [if_pos (endsHere.mpr endsTail), ← same]
                exact List.mem_append_right _ List.mem_cons_self
              · exact Or.inr ⟨stops, i, later, same, endsTail⟩
      · next beyond =>
          refine Returns.pure fun stop => ⟨Or.inl, ?_⟩
          rintro (member | ⟨stops, i, after, rfl, _⟩)
          · exact member
          · omega

/-! ## The structural check -/

/-- The structural check of one round of the search: the count byte stands at `idx`, a
signer byte and the opening of a varint before it, and after its hashes a tail of
the slot's activation and the own round, up to the end. -/
structure Qualifies (slot : Slot) (ownRound : Nat) (round : Nat × Nat × Nat) (idx : Nat) :
    Prop where
  stop_eq : idx + (1 + 32 * round.2.1) + round.2.2 = round.1
  preceded : 30 ≤ idx
  count : ∃ byte, payload.bytes[idx]? = some byte ∧ byte.toNat = round.2.1
  signers : ∃ byte, payload.bytes[idx - 21]? = some byte ∧ byte < 0xfb
  opening : payload.bytes[idx - 30]? = some 0xfd
  tail : (recordTail payload (idx + (1 + 32 * round.2.1))).run =
    .ok (some (slot.activation, ownRound, round.1))

theorem returns_ownCandidate (slot : Slot) (ownRound : Nat) {stop count tailLen : Nat}
    (stops : stop ≤ payload.length) (small : count ≤ 250) :
    Returns (ownCandidate payload slot ownRound (stop, count, tailLen)).run fun result =>
      ∀ idx, Qualifies payload slot ownRound (stop, count, tailLen) idx ↔ result = some idx := by
  have bound := payload.add_lt stops (Nat.zero_le isizeMax)
  -- a check that fails leaves no index that qualifies
  have fails : ∀ {program : Fallible Nat}, program.run = .ok none →
      (∀ idx, ¬Qualifies payload slot ownRound (stop, count, tailLen) idx) →
      Returns program.run fun result =>
        ∀ idx, Qualifies payload slot ownRound (stop, count, tailLen) idx ↔ result = some idx :=
    fun ran none => ⟨_, ran, fun idx => ⟨fun qualifies => absurd qualifies (none idx), nofun⟩⟩
  unfold ownCandidate
  rcases Nat.lt_or_ge stop tailLen with short | longTail
  · refine fails (run_bind_of_none (checkedSub_of_lt short) _) fun idx qualifies => ?_
    have stopEq : idx + (1 + 32 * count) + tailLen = stop := qualifies.stop_eq
    omega
  rw [run_bind_of_some (checkedSub_of_le longTail),
    run_lift_bind (mulUsize_of_lt (by unfold usizeBound; omega)),
    run_lift_bind (addUsize_of_lt (by unfold usizeBound; omega))]
  rcases Nat.lt_or_ge (stop - tailLen) (1 + 32 * count) with short | longHashes
  · refine fails (run_bind_of_none (checkedSub_of_lt short) _) fun idx qualifies => ?_
    have stopEq : idx + (1 + 32 * count) + tailLen = stop := qualifies.stop_eq
    omega
  rw [run_bind_of_some (checkedSub_of_le longHashes)]
  generalize position : stop - tailLen - (1 + 32 * count) = idx
  have hashesEnd : stop - tailLen = idx + (1 + 32 * count) := by omega
  have only : ∀ {other}, Qualifies payload slot ownRound (stop, count, tailLen) other →
      other = idx := by
    intro other qualifies
    have stopEq : other + (1 + 32 * count) + tailLen = stop := qualifies.stop_eq
    omega
  rw [hashesEnd]
  by_cases early : idx < 30
  · rw [if_pos early]
    refine fails rfl fun other qualifies => ?_
    have preceded := qualifies.preceded
    rw [only qualifies] at preceded
    omega
  rw [if_neg early]
  obtain ⟨countByte, countAt⟩ := payload.exists_getElem?_of_lt (show idx < payload.length by omega)
  rw [run_lift_bind (payload.byteAt_of_some countAt)]
  by_cases otherCount : countByte.toNat ≠ count
  · rw [if_pos otherCount]
    refine fails rfl fun other qualifies => ?_
    obtain ⟨byte, found, same⟩ := qualifies.count
    rw [only qualifies, countAt] at found
    cases found
    exact otherCount same
  rw [if_neg otherCount, run_lift_bind (subUsize_of_le (by omega))]
  obtain ⟨signers, signersAt⟩ :=
    payload.exists_getElem?_of_lt (show idx - 21 < payload.length by omega)
  rw [run_lift_bind (payload.byteAt_of_some signersAt)]
  by_cases large : 0xfb ≤ signers
  · rw [if_pos large]
    refine fails rfl fun other qualifies => ?_
    obtain ⟨byte, found, below⟩ := qualifies.signers
    rw [only qualifies, signersAt] at found
    cases found
    exact absurd below (UInt8.not_lt.mpr large)
  rw [if_neg large, run_lift_bind (subUsize_of_le (by omega))]
  obtain ⟨opening, openingAt⟩ :=
    payload.exists_getElem?_of_lt (show idx - 30 < payload.length by omega)
  rw [run_lift_bind (payload.byteAt_of_some openingAt)]
  by_cases unopened : opening ≠ 0xfd
  · rw [if_pos unopened]
    refine fails rfl fun other qualifies => ?_
    have found := qualifies.opening
    rw [only qualifies, openingAt] at found
    cases found
    exact unopened rfl
  rw [if_neg unopened]
  obtain ⟨tail, ran, _⟩ := yields_recordTail payload
    (show idx + (1 + 32 * count) ≤ payload.length by omega)
  rw [run_lift_bind ran]
  by_cases otherTail : tail ≠ some (slot.activation, ownRound, stop)
  · rw [if_pos otherTail]
    refine fails rfl fun other qualifies => ?_
    have same := qualifies.tail
    rw [only qualifies] at same
    exact otherTail (Except.ok.inj (ran.symm.trans same))
  rw [if_neg otherTail]
  refine ⟨some idx, rfl, fun other => ⟨fun qualifies => ?_, ?_⟩⟩
  · rw [only qualifies]
  · rintro ⟨⟩
    rw [not_not] at otherCount unopened otherTail
    rw [unopened] at openingAt
    rw [otherTail] at ran
    refine ⟨?_, Nat.le_of_not_lt early, ⟨countByte, countAt, otherCount⟩,
      ⟨signers, signersAt, UInt8.not_le.mp large⟩, openingAt, ran⟩
    change idx + (1 + 32 * count) + tailLen = stop
    omega

/-! ## The search -/

theorem mem_searchSpace {ends : List Nat} {stop count tailLen : Nat} :
    (stop, count, tailLen) ∈ searchSpace ends ↔
      stop ∈ ends ∧ count ≤ 250 ∧ 20 ≤ tailLen ∧ tailLen ≤ recordTailMax := by
  unfold searchSpace
  rw [List.mem_flatMap]
  constructor
  · rintro ⟨tailEnd, member, found⟩
    obtain ⟨width, small, mapped⟩ := List.mem_flatMap.mp found
    obtain ⟨margin, inside, same⟩ := List.mem_map.mp mapped
    cases same
    have below := List.mem_range.mp small
    have between := List.mem_range'_1.mp inside
    have longest : recordTailMax = 69 := rfl
    exact ⟨member, by omega, by omega, by omega⟩
  · rintro ⟨member, small, shortest, longest⟩
    have most : recordTailMax = 69 := rfl
    refine ⟨stop, member, List.mem_flatMap.mpr ⟨count, List.mem_range.mpr (by omega), ?_⟩⟩
    exact List.mem_map.mpr ⟨tailLen, List.mem_range'_1.mpr ⟨shortest, by omega⟩, rfl⟩

/-- An index that an earlier round left, or that qualifies in one of the rounds to come. -/
def Hit (slot : Slot) (ownRound : Nat) (rounds : List (Nat × Nat × Nat)) (countIdx : Option Nat)
    (idx : Nat) : Prop :=
  countIdx = some idx ∨ ∃ round ∈ rounds, Qualifies payload slot ownRound round idx

theorem hit_cons {slot : Slot} {ownRound : Nat} {round : Nat × Nat × Nat}
    {rest : List (Nat × Nat × Nat)} {countIdx : Option Nat} {idx : Nat} :
    Hit payload slot ownRound (round :: rest) countIdx idx ↔
      Qualifies payload slot ownRound round idx ∨ Hit payload slot ownRound rest countIdx idx := by
  unfold Hit
  rw [List.exists_mem_cons_iff]
  exact or_left_comm

/-- What the result of the search says of the indices hit: two differ, or at most one is. -/
def Reports (hit : Nat → Prop) : Option (Option Nat) → Prop
  | none => ∃ first second, first ≠ second ∧ hit first ∧ hit second
  | some found => ∀ idx, hit idx ↔ found = some idx

theorem Reports.congr {before after : Nat → Prop} (same : ∀ idx, before idx ↔ after idx)
    {result : Option (Option Nat)} (reports : Reports after result) : Reports before result := by
  rwa [funext fun idx => propext (same idx)]

theorem returns_searchCount (slot : Slot) (ownRound : Nat) {rounds : List (Nat × Nat × Nat)}
    (bounded : ∀ round ∈ rounds, round.1 ≤ payload.length ∧ round.2.1 ≤ 250)
    (countIdx : Option Nat) :
    Returns (searchCount payload slot ownRound rounds countIdx)
      (Reports (Hit payload slot ownRound rounds countIdx)) := by
  induction rounds generalizing countIdx with
  | nil =>
      refine Returns.pure fun idx => ⟨?_, Or.inl⟩
      rintro (same | ⟨_, member, _⟩)
      · exact same
      · exact absurd member List.not_mem_nil
  | cons round rest ih =>
      obtain ⟨stop, count, tailLen⟩ := round
      obtain ⟨stops, small⟩ := bounded _ List.mem_cons_self
      have later := fun other member => bounded other (List.mem_cons_of_mem _ member)
      unfold searchCount
      refine Returns.bind (returns_ownCandidate payload slot ownRound stops small) ?_
      intro candidate qualifies
      cases candidate with
      | none =>
          refine (ih later countIdx).mono fun result => Reports.congr fun idx => ?_
          rw [hit_cons, qualifies idx]
          exact or_iff_right nofun
      | some idx =>
          have here : Hit payload slot ownRound ((stop, count, tailLen) :: rest) countIdx idx :=
            (hit_cons payload).mpr (Or.inl ((qualifies idx).mpr rfl))
          dsimp only
          split
          · next differs =>
              cases countIdx with
              | none => cases differs
              | some other =>
                  exact Returns.pure ⟨other, idx, of_decide_eq_true differs, Or.inl rfl, here⟩
          · next agrees =>
              have held : countIdx = none ∨ countIdx = some idx := by
                cases countIdx with
                | none => exact Or.inl rfl
                | some other =>
                    refine Or.inr (congrArg some ?_)
                    by_contra unequal
                    exact agrees (decide_eq_true unequal)
              refine (ih later (some idx)).mono fun result => Reports.congr fun other => ?_
              rw [hit_cons, qualifies other]
              unfold Hit
              rcases held with rfl | rfl
              · exact or_congr_right (or_iff_right nofun)
              · exact or_self_left

end MarketBenchmark
