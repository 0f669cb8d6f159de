import MarketBenchmark.Ordering.Records

/-!
# The ordering parser does not panic

One statement for each function of the parser: on every payload it ends
without a panic, and what it returns lies within the payload.
-/

namespace MarketBenchmark

open Foundation.Panics
open Foundation.Endian
open Foundation.Streams

variable (payload : Slice)

/-! ## Numbers -/

theorem yields_readVarint (i : Nat) : Yields (readVarint payload i) fun read =>
    i < read.2 ∧ read.2 ≤ payload.length := by
  unfold readVarint
  refine Yields.bind (payload.yields_get i) fun tag found => ?_
  have within := payload.lt_of_getElem?_eq_some found
  split
  · exact payload.yields_readBehind within (by decide : 2 ∈ [1, 2]) (by decide) fromLe
  split
  · exact payload.yields_readBehind within (by decide : 4 ∈ [1, 2, 3, 4]) (by decide) fromLe
  split
  · refine Yields.bind (Yields.lift (returns_addUsize
      (payload.add_lt within.le (by decide)))) ?_
    rintro _ rfl
    refine Yields.bind (Yields.lift (returns_addUsize
      (payload.add_lt within.le (by decide)))) ?_
    rintro _ rfl
    refine Yields.bind (payload.yields_getRange (i + 1) (i + 9)) ?_
    rintro _ ⟨rfl, le, inside⟩
    have size : (payload.cut (i + 1) (i + 9)).bytes.length = 8 := by
      rw [payload.length_cut inside]
      omega
    refine Yields.bind (Yields.lift (returns_copyArray size)) fun bytes _ => ?_
    refine Yields.bind (Yields.lift (returns_addUsize
      (payload.add_lt within.le (by decide)))) ?_
    rintro _ rfl
    exact Yields.pure ⟨by dsimp only; omega, inside⟩
  split
  · exact Yields.failure
  · exact payload.yields_readHere within tag.toNat

theorem yields_u32At {i : Nat} (within : i ≤ payload.length) :
    Yields (u32At payload i) fun value =>
      i + 4 ≤ payload.length ∧ value = fromLe (payload.cut i (i + 4)).bytes := by
  unfold u32At
  refine Yields.bind (payload.yields_getAll_cut 4 within (by decide)) ?_
  rintro bytes ⟨inside, same⟩
  exact Yields.pure ⟨inside, congrArg fromLe same⟩

theorem yields_skipVarints (count : Nat) {p : Nat} (within : p ≤ payload.length) :
    Yields (skipVarints payload count p) fun next => next ≤ payload.length := by
  induction count generalizing p with
  | zero => exact Yields.pure within
  | succ count ih =>
      unfold skipVarints
      refine Yields.bind (yields_readVarint payload p) ?_
      rintro ⟨_, next⟩ ⟨_, inside⟩
      exact ih inside

theorem yields_slotStart :
    Yields (slotStart payload) fun start => start ≤ payload.length := by
  unfold slotStart
  split
  · exact Yields.failure
  · next opened =>
      have nonempty : 1 ≤ payload.length := by
        rw [not_not] at opened
        exact List.length_pos_of_mem (List.mem_of_mem_head? opened)
      refine Yields.bind (yields_skipVarints payload 8 nonempty) fun p _ => ?_
      refine Yields.bind (yields_readVarint payload p) ?_
      rintro ⟨_, next⟩ ⟨_, inside⟩
      exact Yields.pure inside

/-! ## Certificate tails -/

theorem yields_timeoutRounds (count : Nat) {k : Nat} (rounds : List Nat)
    (within : k ≤ payload.length) : Yields (timeoutRounds payload count k rounds) fun read =>
      k ≤ read.2 ∧ read.2 ≤ payload.length := by
  induction count generalizing k rounds with
  | zero => exact Yields.pure ⟨Nat.le_refl k, within⟩
  | succ count ih =>
      unfold timeoutRounds
      refine Yields.bind (payload.yields_get k) fun tag found => ?_
      have inside := payload.lt_of_getElem?_eq_some found
      split
      · exact Yields.failure
      · refine Yields.bind (Yields.lift (returns_addUsize (payload.add_lt within (by decide)))) ?_
        rintro _ rfl
        refine Yields.bind (yields_u32At payload inside) ?_
        rintro round ⟨fits, _⟩
        refine Yields.bind (Yields.lift (returns_addUsize (payload.add_lt within (by decide)))) ?_
        rintro _ rfl
        refine (ih (rounds ++ [round]) (by omega)).mono ?_
        rintro read ⟨after, stops⟩
        exact ⟨by omega, stops⟩

theorem yields_certificates {j : Nat} (within : j ≤ payload.length) :
    Yields (certificates payload j) fun read => j ≤ read.2 ∧ read.2 ≤ payload.length := by
  unfold certificates
  refine Yields.bind (Yields.lift (yields_readVarint payload j).run) fun result counted => ?_
  cases result with
  | none => exact Yields.pure ⟨Nat.le_refl j, within⟩
  | some read =>
      obtain ⟨count, k⟩ := read
      obtain ⟨after, inside⟩ := counted (count, k) rfl
      dsimp only at after inside ⊢
      split
      · refine (yields_timeoutRounds payload count [] inside).mono ?_
        rintro read ⟨later, stops⟩
        exact ⟨by omega, stops⟩
      · exact Yields.pure ⟨Nat.le_refl j, within⟩

theorem yields_smallBytes (left : Nat) {j smalls : Nat} (within : j ≤ payload.length)
    (few : smalls + left ≤ isizeMax) : Yields (smallBytes payload left j smalls) fun read =>
      j ≤ read.2 ∧ read.2 < payload.length := by
  induction left generalizing j smalls with
  | zero =>
      unfold smallBytes
      refine Yields.bind (payload.yields_get j) fun byte found => ?_
      exact Yields.pure ⟨Nat.le_refl j, payload.lt_of_getElem?_eq_some found⟩
  | succ left ih =>
      unfold smallBytes
      refine Yields.bind (payload.yields_get j) fun byte found => ?_
      have inside := payload.lt_of_getElem?_eq_some found
      dsimp only
      split
      · refine Yields.bind (Yields.lift (returns_addUsize (payload.add_lt within (by decide)))) ?_
        rintro _ rfl
        have countFits : smalls + 1 < usizeBound := by
          unfold usizeBound
          unfold isizeMax at few
          omega
        refine Yields.bind (Yields.lift (returns_addUsize countFits)) ?_
        rintro _ rfl
        refine (ih inside (by omega)).mono ?_
        rintro read ⟨later, stops⟩
        exact ⟨by omega, stops⟩
      · exact Yields.pure ⟨Nat.le_refl j, inside⟩

theorem wrappingSucc_lt (value : Nat) : wrappingSucc value < u32Bound :=
  Nat.mod_lt _ (by decide)

/-- A tail that starts at the index lies within the payload, and its last ten bytes are
`[fc activation][fc qc_parent]`. -/
structure Tail.Closes (payload : Slice) (start : Nat) (tail : Tail) : Prop where
  after : start + 10 < tail.stop
  within : tail.stop ≤ payload.length
  round : tail.round < u32Bound
  activationTag : payload.bytes[tail.stop - 10]? = some 0xfc
  activation : tail.activation = fromLe (payload.cut (tail.stop - 9) (tail.stop - 5)).bytes
  parentTag : payload.bytes[tail.stop - 5]? = some 0xfc

theorem yields_parseTail {start : Nat} (within : start ≤ payload.length) :
    Yields (parseTail payload start) (Tail.Closes payload start) := by
  unfold parseTail
  refine Yields.bind (payload.yields_get start) fun tag found => ?_
  split
  · exact Yields.failure
  refine Yields.bind (Yields.lift (returns_addUsize (payload.add_lt within (by decide)))) ?_
  rintro _ rfl
  refine Yields.bind (payload.yields_get (start + 5)) fun second secondFound => ?_
  split
  · exact Yields.failure
  refine Yields.bind (Yields.lift (returns_addUsize (payload.add_lt within (by decide)))) ?_
  rintro _ rfl
  refine Yields.bind (yields_readVarint payload (start + 5)) ?_
  rintro ⟨_, varintEnd⟩ ⟨afterSecond, varintInside⟩
  refine Yields.bind (yields_certificates payload varintInside) ?_
  rintro ⟨rounds, certificatesEnd⟩ ⟨afterVarint, certificatesInside⟩
  refine Yields.bind (yields_smallBytes payload 4 certificatesInside (by decide)) ?_
  rintro ⟨smalls, j⟩ ⟨afterCertificates, inside⟩
  dsimp only at afterSecond afterVarint afterCertificates inside ⊢
  split
  · exact Yields.failure
  refine Yields.bind (payload.yields_get j) fun activationTag activationFound => ?_
  split
  · exact Yields.failure
  next rightTag =>
  have fits : ∀ {margin}, margin ≤ isizeMax → j + margin < usizeBound :=
    fun small => payload.add_lt inside.le small
  refine Yields.bind (Yields.lift (returns_addUsize (fits (by decide)))) ?_
  rintro _ rfl
  refine Yields.bind (payload.yields_get (j + 5)) fun parentTag parentFound => ?_
  have parentInside := payload.lt_of_getElem?_eq_some parentFound
  split
  · exact Yields.failure
  next rightParentTag =>
  refine Yields.bind (Yields.lift (returns_addUsize (fits (by decide)))) ?_
  rintro _ rfl
  refine Yields.bind (yields_u32At payload inside) ?_
  rintro _ ⟨_, rfl⟩
  refine Yields.bind (Yields.lift (returns_addUsize (fits (by decide)))) ?_
  rintro _ rfl
  refine Yields.bind (yields_u32At payload parentInside) ?_
  rintro qcParent ⟨parentFits, _⟩
  refine Yields.bind (Yields.lift (returns_addUsize (fits (by decide)))) ?_
  rintro _ rfl
  rw [not_not] at rightTag rightParentTag
  rw [rightTag] at activationFound
  rw [rightParentTag] at parentFound
  exact Yields.pure
    { after := show start + 10 < j + 10 by omega
      within := by omega
      round := wrappingSucc_lt _
      activationTag := activationFound
      activation := rfl
      parentTag := parentFound }

theorem yields_recordTail {start : Nat} (within : start ≤ payload.length) :
    Yields (recordTail payload start) fun _ => True := by
  unfold recordTail
  exact Yields.bind (yields_parseTail payload within) fun _ _ => Yields.pure trivial

/-! ## Records -/

/-- An array of bytes that stand side by side in the payload. -/
def CopiedFrom (payload : Slice) {size : Nat} (array : Vector UInt8 size) : Prop :=
  ∃ start, start + size ≤ payload.length ∧
    array.toList = (payload.cut start (start + size)).bytes

/-- A header whose proposer and hashes are bytes of the payload. -/
structure BlockHeader.CopiedFrom (payload : Slice) (header : BlockHeader) : Prop where
  proposer : MarketBenchmark.CopiedFrom payload header.proposer
  txHashes : ∀ hash ∈ header.txHashes, MarketBenchmark.CopiedFrom payload hash

/-- Copying a range of the right size copies its bytes. -/
theorem returns_copyArray_cut {start size stop : Nat} (within : stop ≤ payload.length)
    (size_eq : start + size = stop) :
    Returns (copyArray size (payload.cut start stop)) (CopiedFrom payload) := by
  subst size_eq
  have length : (payload.cut start (start + size)).bytes.length = size := by
    rw [payload.length_cut within, Nat.add_sub_cancel_left]
  exact (returns_copyArray length).mono fun array same => ⟨start, within, same⟩

theorem returns_copyHashes (count : Nat) {k : Nat} (within : k + 32 * count ≤ payload.length) :
    Returns (copyHashes payload count k) fun hashes => hashes.length = count ∧
      ∀ hash ∈ hashes, CopiedFrom payload hash := by
  induction count generalizing k with
  | zero => exact Returns.pure ⟨rfl, nofun⟩
  | succ count ih =>
      have fits : k + 32 < usizeBound := payload.add_lt (by omega) (by decide)
      unfold copyHashes
      refine Returns.bind (returns_addUsize fits) ?_
      rintro _ rfl
      refine Returns.bind (payload.returns_range (by omega) (by omega)) ?_
      rintro _ rfl
      refine Returns.bind (returns_copyArray_cut payload (by omega) rfl) fun hash copied => ?_
      refine Returns.bind (returns_addUsize fits) ?_
      rintro _ rfl
      refine Returns.bind (ih (by omega)) ?_
      rintro rest ⟨same, restCopied⟩
      exact Returns.pure ⟨congrArg (· + 1) same, List.forall_mem_cons.mpr ⟨copied, restCopied⟩⟩

theorem yields_readHashes {k : Nat} (count : Nat) :
    Yields (readHashes payload k count) fun hashes =>
    hashes.length = count ∧ k + 32 * count ≤ payload.length ∧
      ∀ hash ∈ hashes, CopiedFrom payload hash := by
  unfold readHashes
  split
  · exact Yields.failure
  · next few =>
      have small : count * 32 < usizeBound := by
        unfold maxBundleHashes at few
        unfold usizeBound
        omega
      refine Yields.bind (Yields.lift (returns_mulUsize small)) ?_
      rintro _ rfl
      refine Yields.bind (yields_checkedAdd k (count * 32)) ?_
      rintro _ ⟨rfl, _⟩
      split
      · exact Yields.failure
      · next inside =>
          have within : k + 32 * count ≤ payload.length := by omega
          refine Yields.lift ((returns_copyHashes payload count within).mono ?_)
          rintro hashes ⟨same, copied⟩
          exact ⟨same, within, copied⟩

/-- Hashes that the payload has room for are read. -/
theorem readHashes_run {k count : Nat} {txHashes : List Hash32} (few : count ≤ maxBundleHashes)
    (within : k + 32 * count ≤ payload.length)
    (copied : copyHashes payload count k = .ok txHashes) :
    (readHashes payload k count).run = .ok (some txHashes) := by
  have bound := payload.add_lt within (Nat.zero_le isizeMax)
  have small : count * 32 < usizeBound := by omega
  have sum : k + count * 32 < usizeBound := by omega
  unfold readHashes
  rw [if_neg (Nat.not_lt_of_le few), run_lift_bind (mulUsize_of_lt small),
    run_bind_of_some (checkedAdd_of_lt sum), if_neg (by omega), copied]
  rfl

/-- The index past the hashes that were read. -/
theorem yields_hashesEnd {k count : Nat} {txHashes : List Hash32} (same : txHashes.length = count)
    (within : k + 32 * count ≤ payload.length) :
    Returns (mulUsize txHashes.length 32) fun size => size = 32 * count ∧
      Returns (addUsize k size) fun stop => stop = k + 32 * count := by
  have bound := payload.add_lt within (Nat.zero_le isizeMax)
  have small : txHashes.length * 32 < usizeBound := by omega
  refine (returns_mulUsize small).mono ?_
  rintro _ rfl
  have size : txHashes.length * 32 = 32 * count := by omega
  rw [size]
  exact ⟨rfl, returns_addUsize bound⟩

theorem yields_parseSlot : Yields (parseSlot payload) fun slot =>
    slot.stop ≤ payload.length ∧ slot.header.CopiedFrom payload ∧
      slot.header.round < u32Bound := by
  unfold parseSlot
  refine Yields.bind (yields_slotStart payload) fun p within => ?_
  refine Yields.bind (yields_checkedAdd p 20) ?_
  rintro _ ⟨rfl, _⟩
  refine Yields.bind (payload.yields_getRange p (p + 20)) ?_
  rintro _ ⟨rfl, _, proposerInside⟩
  refine Yields.bind (Yields.lift (returns_copyArray_cut payload proposerInside rfl)) ?_
  intro proposer proposerCopied
  refine Yields.bind (payload.yields_get (p + 20)) fun tag tagFound => ?_
  split
  · refine Yields.bind (payload.yields_getAll proposerInside (by decide)) ?_
    rintro bytes ⟨size, _⟩
    refine Yields.bind (Yields.lift (returns_addUsize
      (payload.add_lt proposerInside (by decide)))) ?_
    rintro _ rfl
    refine Yields.bind (yields_readVarint payload _) ?_
    rintro ⟨count, k⟩ _
    refine Yields.bind (yields_readHashes payload count) ?_
    rintro txHashes ⟨same, inside, copied⟩
    refine Yields.bind (Yields.lift (yields_hashesEnd payload same inside)) ?_
    rintro _ ⟨rfl, returnsEnd⟩
    refine Yields.bind (Yields.lift returnsEnd) ?_
    rintro _ rfl
    have round := fromLe_lt bytes
    rw [size] at round
    exact Yields.pure ⟨inside, ⟨proposerCopied, copied⟩, round⟩
  · refine Yields.bind (yields_readVarint payload _) ?_
    rintro ⟨count, k⟩ _
    refine Yields.bind (yields_readHashes payload count) ?_
    rintro txHashes ⟨same, inside, copied⟩
    refine Yields.bind (Yields.lift (yields_hashesEnd payload same inside)) ?_
    rintro _ ⟨rfl, returnsEnd⟩
    refine Yields.bind (Yields.lift returnsEnd) ?_
    rintro _ rfl
    refine Yields.bind (yields_parseTail payload inside) ?_
    intro tail closes
    exact Yields.pure ⟨closes.within, ⟨proposerCopied, copied⟩, closes.round⟩

end MarketBenchmark
