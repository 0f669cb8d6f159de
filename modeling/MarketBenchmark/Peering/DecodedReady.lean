import MarketBenchmark.Peering.HexIdentities
import MarketBenchmark.Peering.LateRounds
import MarketBenchmark.Foundation.FirstWrites

/-!
# The decoded leg admits the chain's block

A round of the decoded leg is an event exactly with its first complete line,
and only if that line has the bundles that the reference line names.  Hashes
are numbers written in hexadecimal, so neither padding nor case tells two of
them apart, and the order of the bundles does not matter.
-/

namespace MarketBenchmark

open Foundation Foundation.HashMaps Foundation.Runs Foundation.FirstWrites

/-! ## Hashes as numbers -/

/-- The number that is written with the digits, after what was read before. -/
def digitsValue (digits : List Nat) (value : Nat) : Nat :=
  digits.foldl (fun value digit => 16 * value + digit) value

/-- The number that a hash text stands for. -/
def hexValue (text : String) : Option Nat :=
  ((stripHexPrefix text.toList).mapM hexDigit).map fun digits => digitsValue digits 0

/-- The number whose bytes are those of the hash. -/
def hashValue (hash : Hash32) : Nat :=
  hash.toList.foldl (fun value byte => 256 * value + byte.toNat) 0

theorem digitsValue_zeros (count value : Nat) (digits : List Nat) (zero : value = 0) :
    digitsValue (List.replicate count 0 ++ digits) value = digitsValue digits value := by
  subst zero
  induction count with
  | zero => rfl
  | succ count ih => exact ih

/-- Two digits make one byte. -/
theorem foldl_nibbles (bytes : List UInt8) (value : Nat) :
    bytes.foldl (fun value byte => 256 * value + byte.toNat) value =
      digitsValue (Hexadecimal.nibbles bytes) value := by
  induction bytes generalizing value with
  | nil => rfl
  | cons byte rest ih =>
      have sameValue : 256 * value + byte.toNat =
          16 * (16 * value + byte.toNat / 16) + byte.toNat % 16 := by omega
      rw [List.foldl_cons, ih, sameValue]
      rfl

/-- A hash has the value of its text. -/
theorem hashValue_of_parse {text : String} {hash : Hash32} (parsed : parseHex32 text = some hash) :
    hexValue text = some (hashValue hash) := by
  obtain ⟨digits, read, _, nibbles⟩ := nibbles_of_parse parsed
  rw [hexValue, read, Option.map_some, hashValue, foldl_nibbles, nibbles,
    digitsValue_zeros _ _ _ rfl]

theorem map_hexValue {texts : List String} {hashes : List Hash32}
    (parsed : texts.mapM parseHex32 = some hashes) :
    texts.map hexValue = hashes.map fun hash => some (hashValue hash) := by
  induction texts generalizing hashes with
  | nil =>
      cases parsed
      rfl
  | cons text rest ih =>
      rw [List.mapM_cons, Option.bind_eq_bind, Option.bind_eq_some_iff] at parsed
      obtain ⟨hash, isHash, parsed⟩ := parsed
      rw [Option.bind_eq_bind, Option.bind_eq_some_iff] at parsed
      obtain ⟨others, areOthers, ⟨⟩⟩ := parsed
      rw [List.map_cons, List.map_cons, hashValue_of_parse isHash, ih areOthers]

/-- Texts with the same sorted hashes stand for the same numbers, each as often. -/
theorem perm_hexValues {texts others : List String} {hashes : List Hash32}
    (first : DecodedAssembly.sortedHashes texts = some hashes)
    (second : DecodedAssembly.sortedHashes others = some hashes) :
    (texts.map hexValue).Perm (others.map hexValue) := by
  have values : ∀ {texts : List String}, DecodedAssembly.sortedHashes texts = some hashes →
      (texts.map hexValue).Perm (hashes.map fun hash => some (hashValue hash)) := by
    intro texts sorted
    obtain ⟨unsorted, parsed, rfl⟩ := Option.map_eq_some_iff.mp sorted
    rw [map_hexValue parsed]
    exact (List.mergeSort_perm unsorted _).symm.map _
  exact (values first).trans (values second).symm

namespace DecodedAssembly

/-! ## The slot of a line -/

/-- The complete line in the entry of a round. -/
def lineSlot (round : Nat) (assembly : DecodedAssembly) :
    Option (Option (Nat × Nat × List Hash32)) :=
  (assembly.rounds.lookup round).map DecodedRound.line

/-- The call is a complete block of the round that is tracked and whose hashes can be read. -/
structure BringsBlock (assembly : DecodedAssembly) (round : Nat) (line : DecodedLine)
    (hashes : List Hash32) : Prop where
  own : line.round = round
  tracks : assembly.Tracks line
  complete : line.complete = true
  wellFormed : sortedHashes line.signedActionBundles = some hashes

/-- What a call offers as the complete line of a round. -/
def lineWrites (round : Nat) (assembly : DecodedAssembly) :
    Call → Option (Nat × Nat × List Hash32)
  | .trackLine line arrival wallMs =>
      if line.round = round ∧ assembly.Tracks line ∧ line.complete = true then
        (sortedHashes line.signedActionBundles).map fun hashes => (arrival, wallMs, hashes)
      else none
  | _ => none

variable {parseReferenceTimeMs : String → Option Nat} {assembly : DecodedAssembly}

theorem lineWrites_eq_some {round arrival wallMs : Nat} {call : Call} {hashes : List Hash32} :
    lineWrites round assembly call = some (arrival, wallMs, hashes) ↔
      ∃ line, call = .trackLine line arrival wallMs ∧
        assembly.BringsBlock round line hashes := by
  cases call with
  | trackLine line at_ wall =>
      have offers : lineWrites round assembly (.trackLine line at_ wall) =
          if line.round = round ∧ assembly.Tracks line ∧ line.complete = true then
            (sortedHashes line.signedActionBundles).map fun hashes => (at_, wall, hashes)
          else none := rfl
      rw [offers]
      constructor
      · intro wrote
        by_cases brings : line.round = round ∧ assembly.Tracks line ∧ line.complete = true
        · rw [if_pos brings] at wrote
          obtain ⟨read, wellFormed, same⟩ := Option.map_eq_some_iff.mp wrote
          cases same
          exact ⟨line, rfl, brings.1, brings.2.1, brings.2.2, wellFormed⟩
        · rw [if_neg brings] at wrote
          cases wrote
      · rintro ⟨_, ⟨⟩, own, tracks, complete, wellFormed⟩
        rw [if_pos ⟨own, tracks, complete⟩, wellFormed]
        rfl
  | _ =>
      refine iff_of_false nofun ?_
      rintro ⟨_, impossible, _⟩
      cases impossible

theorem entry_of_lookup {round : Nat} {tracked : DecodedRound}
    (found : assembly.rounds.lookup round = some tracked) : assembly.entry round = tracked := by
  unfold entry
  rw [found]
  rfl

/-- A line that is held stays. -/
theorem lineEntry_of_line {before : DecodedRound} {held : Nat × Nat × List Hash32}
    (holds : before.line = some held) (line : DecodedLine) (arrival wallMs : Nat) :
    (lineEntry before line arrival wallMs).line = some held := by
  unfold lineEntry
  rw [holds]
  dsimp only
  rw [if_pos (Or.inr (Option.isSome_some))]

/-- Without a line, the entry takes what the call offers. -/
theorem lineEntry_of_none {before : DecodedRound} (empty : before.line = none) {round : Nat}
    {line : DecodedLine} (arrival wallMs : Nat) (own : line.round = round)
    (tracks : assembly.Tracks line) :
    (lineEntry before line arrival wallMs).line =
      lineWrites round assembly (.trackLine line arrival wallMs) := by
  unfold lineEntry lineWrites
  rw [empty]
  dsimp only
  cases complete : line.complete with
  | false =>
      rw [if_pos (Or.inl rfl), if_neg fun brings => nomatch brings.2.2]
  | true =>
      rw [if_neg (by simp), if_pos ⟨own, tracks, rfl⟩]
      cases sortedHashes line.signedActionBundles <;> rfl

theorem lineEntry_reference (before : DecodedRound) (line : DecodedLine) (arrival wallMs : Nat) :
    (lineEntry before line arrival wallMs).reference = before.reference := by
  unfold lineEntry
  dsimp only
  split
  · rfl
  · split <;> rfl

theorem lineEntry_reported (before : DecodedRound) (line : DecodedLine) (arrival wallMs : Nat) :
    (lineEntry before line arrival wallMs).reported = before.reported := by
  unfold lineEntry
  dsimp only
  split
  · rfl
  · split <;> rfl

/-- The first complete line of a round stays until the round is dropped. -/
theorem line_writeOnce (round : Nat) :
    WriteOnce (step parseReferenceTimeMs) (lineSlot round) (lineWrites round) := by
  constructor
  · rintro before _ call held ⟨⟩ filled
    obtain ⟨tracked, found, isLine⟩ := Option.map_eq_some_iff.mp filled
    have sameEntry := entry_of_lookup found
    have after := before.roundAfter parseReferenceTimeMs call round
    unfold lineSlot
    generalize (before.next parseReferenceTimeMs call).rounds.lookup round = entry at after ⊢
    cases after with
    | same _ => exact Or.inr filled
    | gone => exact Or.inl rfl
    | lined line arrival wallMs _ _ _ =>
        rw [sameEntry]
        exact Or.inr (congrArg some (lineEntry_of_line isLine line arrival wallMs))
    | named line now timeMs hashes _ _ _ _ =>
        rw [sameEntry]
        exact Or.inr (congrArg some isLine)
    | drained order now other _ isOther =>
        cases Option.some.inj (found.symm.trans isOther)
        refine Or.inr (congrArg some ?_)
        split <;> exact isLine
  · rintro before _ call ⟨⟩ empty
    have noLine : (before.entry round).line = none := by
      cases found : before.rounds.lookup round with
      | none =>
          unfold DecodedAssembly.entry
          rw [found]
          rfl
      | some tracked =>
          unfold lineSlot at empty
          rw [found] at empty
          rw [entry_of_lookup found]
          exact empty
    have after := before.roundAfter parseReferenceTimeMs call round
    unfold lineSlot at empty ⊢
    generalize (before.next parseReferenceTimeMs call).rounds.lookup round = entry at after ⊢
    cases after with
    | same apart =>
        have quiet : lineWrites round before call = none := by
          refine Option.eq_none_iff_forall_ne_some.mpr fun ⟨arrival, wallMs, hashes⟩ wrote => ?_
          obtain ⟨line, isCall, brings⟩ := lineWrites_eq_some.mp wrote
          exact apart line arrival wallMs isCall brings.own brings.tracks
        rw [quiet]
        cases held : (before.rounds.lookup round).map DecodedRound.line with
        | none => exact Or.inl rfl
        | some line =>
            rw [held] at empty
            exact Or.inr (congrArg some empty)
    | gone => exact Or.inl rfl
    | lined line arrival wallMs isCall own tracks =>
        subst isCall
        exact Or.inr (congrArg some (lineEntry_of_none noLine arrival wallMs own tracks))
    | named line now timeMs hashes isCall _ _ _ =>
        subst isCall
        exact Or.inr (congrArg some noLine)
    | drained order now tracked isCall found =>
        subst isCall
        rw [entry_of_lookup found] at noLine
        refine Or.inr (congrArg some ?_)
        split <;> exact noLine

/-! ## References -/

/-- A call of the run tracks a line of the round with the time and the bundles. -/
def Accepted (parseReferenceTimeMs : String → Option Nat) (calls : List Call)
    (round timeMs : Nat) (line : ReferenceLine) : Prop :=
  ∃ now, .trackReference line now ∈ calls ∧ line.r = round ∧
    parseReferenceTimeMs line.t = some timeMs

/-- The reference of a tracked round comes from a line of it. -/
theorem accepted_of_run {origin final : DecodedAssembly} {calls : List Call}
    (fresh : ∀ round, origin.rounds.lookup round = none)
    (executed : run (step parseReferenceTimeMs) origin calls = some final)
    {round timeMs : Nat} {hashes : List Hash32} {tracked : DecodedRound}
    (found : final.rounds.lookup round = some tracked)
    (isReference : tracked.reference = some (timeMs, hashes)) :
    ∃ line, Accepted parseReferenceTimeMs calls round timeMs line ∧
      sortedHashes (line.b.map Prod.fst) = some hashes := by
  refine run_induction (fun calls (final : DecodedAssembly) => ∀ tracked,
    final.rounds.lookup round = some tracked → tracked.reference = some (timeMs, hashes) →
      ∃ line, Accepted parseReferenceTimeMs calls round timeMs line ∧
        sortedHashes (line.b.map Prod.fst) = some hashes) ?_ ?_ executed tracked found isReference
  · intro tracked found
    cases (fresh round).symm.trans found
  · rintro calls before call _ reached held ⟨⟩
    have earlier : ∀ tracked, before.rounds.lookup round = some tracked →
        tracked.reference = some (timeMs, hashes) →
        ∃ line, Accepted parseReferenceTimeMs (calls ++ [call]) round timeMs line ∧
          sortedHashes (line.b.map Prod.fst) = some hashes := by
      intro tracked present isReference
      obtain ⟨line, ⟨now, member, rest⟩, bundles⟩ := held tracked present isReference
      exact ⟨line, ⟨now, List.mem_append_left [call] member, rest⟩, bundles⟩
    have known : (before.entry round).reference = some (timeMs, hashes) →
        ∃ line, Accepted parseReferenceTimeMs (calls ++ [call]) round timeMs line ∧
          sortedHashes (line.b.map Prod.fst) = some hashes := by
      intro isReference
      cases present : before.rounds.lookup round with
      | none =>
          unfold DecodedAssembly.entry at isReference
          rw [present] at isReference
          cases isReference
      | some tracked =>
          rw [entry_of_lookup present] at isReference
          exact earlier tracked present isReference
    have after := before.roundAfter parseReferenceTimeMs call round
    generalize (before.next parseReferenceTimeMs call).rounds.lookup round = entry at after ⊢
    cases after with
    | same _ => exact earlier
    | gone => exact nofun
    | lined line arrival wallMs _ _ _ =>
        rintro _ ⟨⟩ isReference
        refine known ?_
        rwa [lineEntry_reference] at isReference
    | named line now _ _ isCall own time bundles =>
        rintro _ ⟨⟩ isReference
        cases isReference
        exact ⟨line, ⟨now, List.mem_append_right calls (isCall ▸ List.mem_cons_self), own, time⟩,
          bundles⟩
    | drained order now tracked _ present =>
        rintro _ ⟨⟩ isReference
        refine earlier tracked present ?_
        split at isReference <;> exact isReference

/-! ## One event for a line -/

/-- The entry has a reference and is not decided. -/
def entryPending (tracked : DecodedRound) : Bool := tracked.reference.isSome && !tracked.reported

/-- The round has a reference and is not decided. -/
def pending (assembly : DecodedAssembly) (round : Nat) : Bool :=
  (assembly.rounds.lookup round).any entryPending

/-- The round is tracked and not decided. -/
def undecided (assembly : DecodedAssembly) (round : Nat) : Bool :=
  (assembly.rounds.lookup round).any fun tracked => !tracked.reported

/-- The lines of a round in the calls. -/
def linesOf (round : Nat) (calls : List Call) : Nat :=
  (calls.filterMap Call.reference).countP fun line => decide (line.r = round)

/-- How often a call returns the round, as an event or in its gap count. -/
def units (assembly : DecodedAssembly) (round : Nat) (call : Call) : Nat :=
  eventsOf round (assembly.emitted call) + (assembly.expired call).count round

def Fate.isReady : Fate → Bool
  | .ready .. => true
  | _ => false

theorem countP_fates (order : IterationOrder) (assembly : DecodedAssembly) (now round : Nat)
    (test : Fate → Bool) :
    (assembly.fates order now).countP (fun entry => decide (entry.1 = round) && test entry.2) =
      if (assembly.rounds.lookup round).any fun tracked => test (fate now tracked)
      then 1 else 0 := by
  unfold fates
  rw [List.countP_map, (order.perm assembly.rounds.entries).countP_eq]
  exact HashMap.countP_key assembly.rounds round fun tracked => test (fate now tracked)

/-- A drain returns a round as its fate says. -/
theorem units_drain (assembly : DecodedAssembly) (order : IterationOrder) (now round : Nat) :
    eventsOf round (assembly.emitted (.drainReady order now)) =
        (if (assembly.rounds.lookup round).any fun tracked => (fate now tracked).isReady
        then 1 else 0) ∧
      (assembly.expired (.drainReady order now)).count round =
        if (assembly.rounds.lookup round).any fun tracked => (fate now tracked).isGap
        then 1 else 0 := by
  constructor
  · rw [← countP_fates order assembly now round Fate.isReady]
    have returned : assembly.emitted (.drainReady order now) =
        (assembly.fates order now).filterMap assembly.readyEvent := rfl
    rw [returned, eventsOf, List.countP_filterMap]
    congr 1
    funext ⟨other, decided⟩
    cases decided <;> simp [readyEvent, Fate.isReady]
  · rw [← countP_fates order assembly now round Fate.isGap]
    have counted : assembly.expired (.drainReady order now) = assembly.gapRounds order now := rfl
    rw [counted, gapRounds, List.count_eq_countP, List.countP_map, List.countP_filter]
    rfl

/-- The entry after a drain that keeps the round. -/
def drainedEntry (now : Nat) (tracked : DecodedRound) : DecodedRound :=
  if fate now tracked = .passed then tracked else { tracked with reported := true }

theorem drainedEntry_of_decided {now : Nat} {tracked : DecodedRound}
    (decided : fate now tracked ≠ .passed) : (drainedEntry now tracked).reported = true := by
  unfold drainedEntry
  rw [if_neg decided]

theorem drainedEntry_pending (now : Nat) (tracked : DecodedRound) :
    entryPending (drainedEntry now tracked) = true → entryPending tracked = true := by
  unfold drainedEntry
  split
  · exact id
  · unfold entryPending
    rw [Bool.not_true, Bool.and_false]
    exact nofun

/-- What a test finds in a round after a drain, it finds in its drained entry. -/
theorem any_drained (assembly : DecodedAssembly) (order : IterationOrder) (now round : Nat)
    (test : DecodedRound → Bool)
    (still : ((assembly.drainReady order now).1.rounds.lookup round).any test = true) :
    ∃ tracked, assembly.rounds.lookup round = some tracked ∧
      test (drainedEntry now tracked) = true := by
  have drained : (assembly.drainReady order now).1.rounds =
      (assembly.rounds.mapValues fun _ tracked => drainedEntry now tracked).retain
        fun round _ => decide (assembly.maxRefRound - roundRetain ≤ round) := rfl
  rw [drained, HashMap.lookup_retain, HashMap.lookup_mapValues, Option.any_eq_true] at still
  obtain ⟨kept, isKept, passes⟩ := still
  obtain ⟨tracked, found, rfl⟩ :=
    Option.map_eq_some_iff.mp (Option.filter_eq_some_iff.mp isKept).1
  exact ⟨tracked, found, passes⟩

/-- A drain that returns an event of a round closes it. -/
theorem eventsOf_drain (assembly : DecodedAssembly) (order : IterationOrder) (now round : Nat) :
    eventsOf round (assembly.emitted (.drainReady order now)) +
        ((assembly.drainReady order now).1.pending round).toNat ≤
      (assembly.pending round).toNat := by
  have after := assembly.any_drained order now round entryPending
  rw [(assembly.units_drain order now round).1]
  unfold pending
  cases found : assembly.rounds.lookup round with
  | none =>
      have closed : ((assembly.drainReady order now).1.rounds.lookup round).any entryPending =
          false := by
        refine Bool.eq_false_iff.mpr fun still => ?_
        obtain ⟨tracked, present, _⟩ := after still
        cases found.symm.trans present
      rw [closed]
      exact Nat.le_refl 0
  | some tracked =>
      have kept : ((assembly.drainReady order now).1.rounds.lookup round).any entryPending =
          true → entryPending (drainedEntry now tracked) = true := by
        intro still
        obtain ⟨other, present, isPending⟩ := after still
        cases Option.some.inj (found.symm.trans present)
        exact isPending
      rw [Option.any_some, Option.any_some]
      cases decided : fate now tracked with
      | ready arrived wall timeMs =>
          obtain ⟨notReported, hashes, _, isReference⟩ := fate_eq_ready.mp decided
          have isPending : entryPending tracked = true := by
            unfold entryPending
            rw [isReference, notReported]
            rfl
          have closed : ((assembly.drainReady order now).1.rounds.lookup round).any
              entryPending = false := by
            refine Bool.eq_false_iff.mpr fun still => ?_
            have isPending := kept still
            unfold entryPending at isPending
            rw [drainedEntry_of_decided (by rw [decided]; exact nofun), Bool.not_true,
              Bool.and_false] at isPending
            cases isPending
          rw [closed, isPending]
          exact Nat.le_refl 1
      | _ =>
          have still := fun pending => drainedEntry_pending now tracked (kept pending)
          exact (Nat.zero_add _).trans_le (Bool.toNat_le_toNat still)

theorem pending_entry (assembly : DecodedAssembly) (round : Nat) :
    entryPending (assembly.entry round) = assembly.pending round := by
  unfold entry pending
  cases assembly.rounds.lookup round <;> rfl

variable (parseReferenceTimeMs) in
/-- A call that returns an event of the round closes it, and only a line of the reference feed
can open it. -/
theorem eventsOf_next (assembly : DecodedAssembly) (call : Call) (round : Nat) :
    eventsOf round (assembly.emitted call) +
        ((assembly.next parseReferenceTimeMs call).pending round).toNat ≤
      (assembly.pending round).toNat + linesOf round [call] := by
  have after := assembly.roundAfter parseReferenceTimeMs call round
  cases call with
  | drainReady order now => exact eventsOf_drain assembly order now round
  | trackLine line arrival wallMs =>
      refine (Nat.zero_add _).trans_le ?_
      unfold pending
      generalize (assembly.next parseReferenceTimeMs (.trackLine line arrival wallMs)).rounds.lookup
        round = entry at after ⊢
      cases after with
      | same _ => exact Nat.le_add_right _ _
      | gone => exact Nat.zero_le _
      | lined other at_ wall _ _ _ =>
          rw [← pending, ← pending_entry, Option.any_some]
          refine Nat.le_trans (Nat.le_of_eq (congrArg Bool.toNat ?_)) (Nat.le_add_right _ _)
          unfold entryPending
          rw [lineEntry_reference, lineEntry_reported]
      | named _ _ _ _ impossible _ _ _ => cases impossible
      | drained _ _ _ impossible _ => cases impossible
  | trackReference line now =>
      refine (Nat.zero_add _).trans_le ?_
      unfold pending
      generalize (assembly.next parseReferenceTimeMs (.trackReference line now)).rounds.lookup
        round = entry at after ⊢
      cases after with
      | same _ => exact Nat.le_add_right _ _
      | gone => exact Nat.zero_le _
      | lined _ _ _ impossible _ _ => cases impossible
      | named _ _ timeMs hashes isCall own _ _ =>
          cases isCall
          have one : linesOf round [.trackReference line now] = 1 := by
            subst own
            exact List.countP_cons_of_pos (decide_eq_true rfl)
          rw [one]
          exact (Bool.toNat_le _).trans (Nat.le_add_left 1 _)
      | drained _ _ _ impossible _ => cases impossible

theorem sum_linesOf (round : Nat) (calls : List Call) :
    (calls.map fun call => linesOf round [call]).sum = linesOf round calls :=
  sum_countP_filterMap _ _ calls

/-- A run returns at most one event of a round for each line of it. -/
theorem eventsOf_run {origin final : DecodedAssembly} {calls : List Call} (round : Nat)
    (fresh : origin.rounds.lookup round = none)
    (executed : run (step parseReferenceTimeMs) origin calls = some final) :
    eventsOf round (emissions (step parseReferenceTimeMs) emitted origin calls) ≤
      linesOf round calls := by
  have budget := countP_emissions_le emitted
    (fun event => decide (event.key.content = .peering round))
    (fun state => (state.pending round).toNat) (fun call => linesOf round [call])
    (fun before call _ stepped => by
      cases stepped
      exact before.eventsOf_next parseReferenceTimeMs call round) executed
  have nothing : (origin.pending round).toNat = 0 := by
    unfold pending
    rw [fresh]
    rfl
  rw [sum_linesOf, nothing, Nat.zero_add] at budget
  exact Nat.le_of_add_right_le budget

/-! ## One outcome while a round is tracked -/

variable (parseReferenceTimeMs) in
/-- A call that returns a tracked round decides it. -/
theorem units_next {round : Nat} {tracked : DecodedRound}
    (found : assembly.rounds.lookup round = some tracked) (call : Call) :
    assembly.units round call +
        ((assembly.next parseReferenceTimeMs call).undecided round).toNat ≤
      (!tracked.reported).toNat := by
  have sameEntry := entry_of_lookup found
  have after := assembly.roundAfter parseReferenceTimeMs call round
  cases call with
  | drainReady order now =>
      obtain ⟨events, gaps⟩ := assembly.units_drain order now round
      have left := assembly.any_drained order now round fun tracked => !tracked.reported
      have stays : (assembly.drainReady order now).1.undecided round = true →
          (drainedEntry now tracked).reported = false := by
        intro still
        obtain ⟨other, present, open_⟩ := left still
        cases Option.some.inj (found.symm.trans present)
        exact Bool.not_eq_true' _ |>.mp open_
      unfold units
      rw [events, gaps, found, Option.any_some, Option.any_some]
      cases decided : fate now tracked with
      | passed =>
          refine (Nat.zero_add _).trans_le (Bool.toNat_le_toNat fun still => ?_)
          have open_ := stays still
          unfold drainedEntry at open_
          rw [if_pos decided] at open_
          rw [open_]
          rfl
      | _ =>
          have isDecided : fate now tracked ≠ .passed := by
            rw [decided]
            exact nofun
          have open_ := (fate_ne_passed.mp isDecided).1
          have closed : (assembly.next parseReferenceTimeMs (.drainReady order now)).undecided
              round = false := by
            refine Bool.eq_false_iff.mpr fun still => ?_
            rw [drainedEntry_of_decided isDecided] at stays
            cases stays still
          rw [closed, open_]
          exact Nat.le_refl 1
  | trackLine line arrival wallMs =>
      refine (Nat.zero_add _).trans_le ?_
      unfold undecided
      generalize (assembly.next parseReferenceTimeMs (.trackLine line arrival wallMs)).rounds.lookup
        round = entry at after ⊢
      cases after with
      | same _ =>
          rw [found]
          exact Nat.le_refl _
      | gone => exact Nat.zero_le _
      | lined other at_ wall _ _ _ =>
          rw [sameEntry, Option.any_some, lineEntry_reported]
      | named _ _ _ _ impossible _ _ _ => cases impossible
      | drained _ _ _ impossible _ => cases impossible
  | trackReference line now =>
      refine (Nat.zero_add _).trans_le ?_
      unfold undecided
      generalize (assembly.next parseReferenceTimeMs (.trackReference line now)).rounds.lookup
        round = entry at after ⊢
      cases after with
      | same _ =>
          rw [found]
          exact Nat.le_refl _
      | gone => exact Nat.zero_le _
      | lined _ _ _ impossible _ _ => cases impossible
      | named _ _ timeMs hashes _ _ _ _ =>
          rw [sameEntry]
          exact Nat.le_refl _
      | drained _ _ _ impossible _ => cases impossible

/-- The round is tracked in every state that makes one of the calls. -/
def TrackedAlong (parseReferenceTimeMs : String → Option Nat) (round : Nat)
    (assembly : DecodedAssembly) (calls : List Call) : Prop :=
  StepsMeet (step parseReferenceTimeMs)
    (fun state _ => state.rounds.lookup round ≠ none) assembly calls

/-- While it is tracked, a round is returned at most once, as an event or in a gap count. -/
theorem units_le_one {round : Nat} {calls : List Call}
    (along : TrackedAlong parseReferenceTimeMs round assembly calls) :
    eventsOf round (emissions (step parseReferenceTimeMs) emitted assembly calls) +
        (emissions (step parseReferenceTimeMs) expired assembly calls).count round ≤
      (assembly.undecided round).toNat := by
  induction calls generalizing assembly with
  | nil => exact Nat.zero_le _
  | cons call rest ih =>
      obtain ⟨present, later⟩ := along
      obtain ⟨tracked, found⟩ := Option.ne_none_iff_exists'.mp present
      have stepped : step parseReferenceTimeMs assembly call =
        some (assembly.next parseReferenceTimeMs call) := rfl
      have here := units_next parseReferenceTimeMs found call
      have after := ih (later _ stepped)
      have owed : assembly.undecided round = !tracked.reported := by
        unfold undecided
        rw [found]
        rfl
      unfold units at here
      unfold eventsOf at here after ⊢
      rw [emissions_cons emitted rest stepped, emissions_cons expired rest stepped,
        List.countP_append, List.count_append, owed]
      omega

/-- A line of a round that has one changes no entry. -/
theorem lookup_trackLine_of_held (stamped : assembly.Stamped) {line : DecodedLine}
    {held : Nat × Nat × List Hash32} (holds : lineSlot line.round assembly = some (some held))
    (arrival wallMs round : Nat) :
    (assembly.trackLine line arrival wallMs).rounds.lookup round =
      assembly.rounds.lookup round := by
  obtain ⟨tracked, found, isLine⟩ := Option.map_eq_some_iff.mp holds
  obtain ⟨seen, firstSeen⟩ := stamped line.round tracked found
  rw [trackLine_eq]
  split
  · by_cases own : line.round = round
    · subst own
      have unchanged : lineEntry tracked line arrival wallMs = tracked := by
        unfold lineEntry
        dsimp only
        rw [isLine, if_pos (Or.inr Option.isSome_some), firstSeen, Option.getD_some, ← isLine,
          ← firstSeen]
      rw [AList.lookup_insert, entry_of_lookup found, unchanged, found]
    · exact AList.lookup_insert_ne (Ne.symm own)
  · rfl

/-! ## The chain's block -/

/-- What the calls before a drain say about an event of it. -/
structure ChainBlock (parseReferenceTimeMs : String → Option Nat) (origin : DecodedAssembly)
    (calls : List Call) (event : MarketEvent) (round timeMs : Nat) (line : DecodedLine)
    (reference : ReferenceLine) : Prop where
  key : event.key = { coin := origin.coin, eventMs := timeMs, content := .peering round }
  provider : event.provider = .quickNodeVpc
  first : ∃ hashes, FirstWrite (step parseReferenceTimeMs) (lineSlot round) (lineWrites round)
    origin calls (.trackLine line event.received event.receivedWallMs)
    (event.received, event.receivedWallMs, hashes)
  isBlock : line.kind = "block" ∨ line.kind = "block_patch"
  complete : line.complete = true
  accepted : Accepted parseReferenceTimeMs calls round timeMs reference
  sameBundles : (line.signedActionBundles.map hexValue).Perm
    ((reference.b.map Prod.fst).map hexValue)

theorem coin_run {origin final : DecodedAssembly} {calls : List Call}
    (executed : run (step parseReferenceTimeMs) origin calls = some final) :
    final.coin = origin.coin :=
  run_preserves (fun state : DecodedAssembly => state.coin = origin.coin)
    (fun before call after same stepped => by
      cases stepped
      refine Eq.trans ?_ same
      cases call with
      | trackLine line arrival wallMs =>
          rw [DecodedAssembly.next, trackLine_eq]
          split <;> rfl
      | trackReference line now =>
          unfold DecodedAssembly.next trackReference
          dsimp only
          split <;> rfl
      | drainReady order now => rfl) rfl executed

/-- The events of a drain are blocks of the chain. -/
theorem chainBlock_of_emitted {origin before : DecodedAssembly} {calls : List Call}
    (fresh : ∀ round, origin.rounds.lookup round = none)
    (reached : run (step parseReferenceTimeMs) origin calls = some before) {call : Call}
    {event : MarketEvent} (returned : event ∈ before.emitted call) :
    ∃ round timeMs line reference,
      ChainBlock parseReferenceTimeMs origin calls event round timeMs line reference := by
  obtain ⟨_, round, tracked, arrived, wall, timeMs, hashes,
    ⟨found, _, isLine, isReference⟩, rfl⟩ := mem_emitted_iff.mp returned
  have held : lineSlot round before = some (some (arrived, wall, hashes)) := by
    unfold lineSlot
    rw [found, Option.map_some, isLine]
  have absent : lineSlot round origin = none := by
    unfold lineSlot
    rw [fresh round]
    rfl
  obtain ⟨writer, first⟩ := ((line_writeOnce round).history absent reached).2 _ held
  obtain ⟨reference, accepted, sorted⟩ := accepted_of_run fresh reached found isReference
  obtain ⟨_, _, _, _, writing, _, _, _, _, _, _, wrote⟩ := id first
  obtain ⟨line, rfl, brings⟩ := lineWrites_eq_some.mp wrote
  refine ⟨round, timeMs, line, reference, ?_, rfl, ⟨hashes, first⟩, brings.tracks.1,
    brings.complete, accepted, perm_hexValues brings.wellFormed sorted⟩
  rw [← coin_run reached]
  rfl

/--
When each round's reference line comes at most once, every event is that of the
first complete line of a round whose bundles are those of the chain, a line of a
round that has one changes no entry, a round has at most one event, and while it
is tracked at most one of an event and a gap.
-/
theorem decoded_admits_chain_block (coin : String) {calls : List Call}
    (once : ((calls.filterMap Call.reference).map ReferenceLine.r).Nodup) :
    (∀ front call back before event, calls = front ++ call :: back →
      run (step parseReferenceTimeMs) (DecodedAssembly.new coin) front = some before →
      event ∈ before.emitted call → ∃ round timeMs line reference,
        ChainBlock parseReferenceTimeMs (DecodedAssembly.new coin) front event round timeMs line
          reference) ∧
    (∀ front line arrival wallMs back before held,
      calls = front ++ .trackLine line arrival wallMs :: back →
      run (step parseReferenceTimeMs) (DecodedAssembly.new coin) front = some before →
      lineSlot line.round before = some (some held) →
      ∀ round, (before.trackLine line arrival wallMs).rounds.lookup round =
        before.rounds.lookup round) ∧
    (∀ round, eventsOf round (emissions (step parseReferenceTimeMs) emitted
      (DecodedAssembly.new coin) calls) ≤ 1) ∧
    ∀ front part back before round, calls = front ++ (part ++ back) →
      run (step parseReferenceTimeMs) (DecodedAssembly.new coin) front = some before →
      TrackedAlong parseReferenceTimeMs round before part →
      eventsOf round (emissions (step parseReferenceTimeMs) emitted before part) +
        (emissions (step parseReferenceTimeMs) expired before part).count round ≤ 1 := by
  refine ⟨?_, ?_, ?_, ?_⟩
  · intro front call back before event _ reached returned
    exact chainBlock_of_emitted (fun _ => rfl) reached returned
  · intro front line arrival wallMs back before held _ reached holds round
    have stamped : before.Stamped := run_preserves DecodedAssembly.Stamped
      (fun _ call _ stamped stepped => by
        cases stepped
        exact stamped.next call) (stamped_new coin) reached
    exact lookup_trackLine_of_held stamped holds arrival wallMs round
  · intro round
    have single : linesOf round calls ≤ 1 := by
      have atMost := List.nodup_iff_count_le_one.mp once round
      rw [List.count_eq_countP, List.countP_map] at atMost
      refine Nat.le_trans (Nat.le_of_eq ?_) atMost
      exact List.countP_congr fun line _ => by simp
    obtain ⟨final, executed⟩ :=
      exists_run (step parseReferenceTimeMs) (fun _ _ => ⟨_, rfl⟩) (DecodedAssembly.new coin) calls
    exact (eventsOf_run round rfl executed).trans single
  · intro front part back before round _ _ along
    exact (units_le_one along).trans (Bool.toNat_le _)

/-- A patch with the bundles in another order and writing, after an incomplete block and before
another one. -/
def samplePatchCalls : List Call :=
  [.trackReference { Assembly.firstLine with b := [("0x1", none, 0), ("0xAB", none, 0)] } 0,
    .trackLine ⟨"block", 2000000, false, ["0x1"]⟩ 1 1786372995201,
    .trackLine ⟨"block_patch", 2000000, true, ["0x00ab", "0x01"]⟩ 2 1786372995202,
    .trackLine ⟨"block", 2000000, true, []⟩ 3 1786372995203]

theorem sortedHashes_pair {first second : String} {left right : Hash32}
    (parsed : [first, second].mapM parseHex32 = some [left, right]) :
    sortedHashes [first, second] =
      some (if hashBefore left right then [left, right] else [right, left]) := by
  rw [sortedHashes, parsed, Option.map_some]
  simp [List.mergeSort, List.MergeSort.Internal.splitInTwo, List.merge]

/-- The hash of a text that is one. -/
def sampleHash32 (text : String) : Hash32 := (parseHex32 text).getD (Vector.replicate 32 0)

theorem sortedHashes_line : sortedHashes ["0x1", "0xAB"] =
    some [sampleHash32 "0x1", sampleHash32 "0xAB"] := by
  have parsed : ["0x1", "0xAB"].mapM parseHex32 =
      some [sampleHash32 "0x1", sampleHash32 "0xAB"] := by decide +kernel
  rw [sortedHashes_pair parsed, if_pos (by decide +kernel)]

theorem sortedHashes_patch : sortedHashes ["0x00ab", "0x01"] =
    some [sampleHash32 "0x1", sampleHash32 "0xAB"] := by
  have parsed : ["0x00ab", "0x01"].mapM parseHex32 =
      some [sampleHash32 "0xAB", sampleHash32 "0x1"] := by decide +kernel
  rw [sortedHashes_pair parsed, if_neg (by decide +kernel)]

/-- The event has the stamps of the patch, and there is no other. -/
theorem decoded_admits_sample : ∃ before event,
    run (step Assembly.sampleTimeMs) (DecodedAssembly.new "BLOCKS") samplePatchCalls =
        some before ∧
      before.emitted (.drainReady .stored 4) = [event] ∧
      event.received = 2 ∧ event.receivedWallMs = 1786372995202 ∧
      event.key.eventMs = 1786372995093 ∧
      (∃ round timeMs line reference, ChainBlock Assembly.sampleTimeMs
        (DecodedAssembly.new "BLOCKS") samplePatchCalls event round timeMs line reference) ∧
      eventsOf 2000000 (emissions (step Assembly.sampleTimeMs) emitted
        (DecodedAssembly.new "BLOCKS") (samplePatchCalls ++ [.drainReady .stored 4])) ≤ 1 := by
  have observed : (run (step Assembly.sampleTimeMs) (DecodedAssembly.new "BLOCKS")
      samplePatchCalls).map (fun before =>
      (before.emitted (.drainReady .stored 4)).map fun event =>
        (event.received, event.receivedWallMs, event.key.eventMs)) =
      some [(2, 1786372995202, 1786372995093)] := by
    simp only [run, samplePatchCalls, step, Option.bind_some, next, trackReference, trackLine,
      List.map, sortedHashes_line, sortedHashes_patch]
    decide +kernel
  obtain ⟨before, reached, drained⟩ := Option.map_eq_some_iff.mp observed
  obtain ⟨event, single, stamps⟩ := List.map_eq_singleton_iff.mp drained
  obtain ⟨received, wall, eventMs⟩ : event.received = 2 ∧ event.receivedWallMs = 1786372995202 ∧
      event.key.eventMs = 1786372995093 := by simpa using stamps
  have once : (((samplePatchCalls ++ [Call.drainReady .stored 4]).filterMap
      Call.reference).map ReferenceLine.r).Nodup := by decide
  obtain ⟨admits, _, most, _⟩ := decoded_admits_chain_block "BLOCKS" once
  refine ⟨before, event, reached, single, received, wall, eventMs, ?_, most 2000000⟩
  exact admits _ _ [] before event rfl reached (single ▸ List.mem_singleton_self event)

end DecodedAssembly

end MarketBenchmark
