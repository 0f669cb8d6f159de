import MarketBenchmark.Feeds.MempoolEmissions

/-!
# Every leg is emitted once

The calls of the join task are a sequence in time.  The first copy of each leg
is carried by exactly one event, and no event carries anything else.
-/

namespace MarketBenchmark.Feeds

open Foundation.HashMaps MempoolJoin

section Joins

variable (coin : String) (calls : Nat → JoinCall)

/-- The join before each call. -/
def joinAt : Nat → MempoolJoin
  | 0 => .new coin
  | position + 1 => (joinAt position).next (calls position)

/-- The events that the call at the position returns. -/
def eventsAt (position : Nat) : List MarketEvent :=
  (joinAt coin calls position).returned (calls position)

/-- The gaps that the call at the position returns. -/
def gapsAt (position : Nat) : Nat :=
  (joinAt coin calls position).vpcGaps (calls position)

/-- The emission of a hash by the call at the position. -/
def emissionAt (position : Nat) (hash : String) : List MarketEvent :=
  ofHash hash (eventsAt coin calls position)

/-- The call at the position offers the input at the time, while its hash is not in `done`. -/
def OffersOpen (position : Nat) (input : JoinInput) (now : Nat) : Prop :=
  calls position = .offer input now ∧ input.hash ∉ (joinAt coin calls position).done

/-- No call from one position up to another emits the hash. -/
def Silent (hash : String) (first last : Nat) : Prop :=
  ∀ position, first ≤ position → position < last → emissionAt coin calls position hash = []

/-- The input is the first copy of its leg that is offered while its hash is not in `done`, among
those that no emission of the hash has followed. -/
def FirstCopy (position : Nat) (input : JoinInput) : Prop :=
  (∃ now, OffersOpen coin calls position input now) ∧
    ∀ earlier < position, ∀ other now, OffersOpen coin calls earlier other now →
      other.hash = input.hash → other.provider = input.provider →
        ¬Silent coin calls input.hash earlier position

/-- The next emission of the hash has exactly one event of the leg, and it carries the copy. -/
def Carries (position : Nat) (input : JoinInput) (last : Nat) : Prop :=
  position ≤ last ∧ Silent coin calls input.hash position last ∧
    ∃ event, (emissionAt coin calls last input.hash).filter
        (fun event => event.provider = input.provider) = [event] ∧
      event.received = input.received ∧ event.receivedWallMs = input.receivedWallMs

/-- Every first copy is carried by one emission, no later than the first expiry that comes at
least the deadline after an offer of its opening. -/
def CarriesFirstCopies : Prop :=
  ∀ position input, FirstCopy coin calls position input →
    ∀ first other now, first ≤ position → OffersOpen coin calls first other now →
      other.hash = input.hash → Silent coin calls input.hash first position →
        ∀ last order late, position ≤ last → calls last = .expire order late →
          now + joinDeadline ≤ late →
            ∃! carrying, carrying ≤ last ∧ Carries coin calls position input carrying

/-- Every event carries one first copy. -/
def CarriesNothingElse : Prop :=
  ∀ last event, event ∈ eventsAt coin calls last → ∃! position, ∃ input,
    FirstCopy coin calls position input ∧ Carries coin calls position input last ∧
      event.provider = input.provider ∧ event.key.content = .mempool input.hash

/-- Two emissions of a hash, in whatever case it is written, are the retention apart. -/
def RemembersDone : Prop :=
  ∀ first last event other firstHash lastHash, first < last → event ∈ eventsAt coin calls first →
    other ∈ eventsAt coin calls last → event.key.content = .mempool firstHash →
      other.key.content = .mempool lastHash →
        toAsciiLowercase firstHash = toAsciiLowercase lastHash →
          (calls first).now + doneRetain ≤ (calls last).now

/-- The events of one emission share the earliest of the receipt time and the wall times of the
legs, so that none arrives before it. -/
def SharesReference : Prop :=
  ∀ last hash, emissionAt coin calls last hash ≠ [] → ∃ eventMs,
    (∀ event ∈ emissionAt coin calls last hash,
      event.key.eventMs = eventMs ∧ eventMs ≤ event.receivedWallMs) ∧
    IsLeast {ms | (∃ event ∈ emissionAt coin calls last hash, event.receivedWallMs = ms) ∨
      ∃ position input, FirstCopy coin calls position input ∧
        Carries coin calls position input last ∧ input.hash = hash ∧
        input.firstRecvMs = some ms} eventMs

/-- The hash of an event of the join. -/
def txHashOf (event : MarketEvent) : Option String :=
  match event.key.content with
  | .mempool txHash => some txHash
  | _ => none

/-- The emitted hashes without an event of the box's leg. -/
def withoutVpc (events : List MarketEvent) : List String :=
  (events.filterMap txHashOf).dedup.filter fun hash =>
    (ofHash hash events).all fun event => event.provider ≠ .quickNodeVpc

/-- The gaps so far are the emissions so far that had no box leg. -/
def CountsGaps : Prop :=
  ∀ count, ((List.range count).map (gapsAt coin calls)).sum =
    ((List.range count).map fun position =>
      (withoutVpc (eventsAt coin calls position)).length).sum

end Joins

section Once

variable {coin : String} {calls : Nat → JoinCall}

theorem joinAt_sound (coin : String) (calls : Nat → JoinCall) (position : Nat) :
    (joinAt coin calls position).Sound := by
  induction position with
  | zero => exact Sound.new coin
  | succ position ih => exact ih.next (calls position)

theorem joinAt_slot (coin : String) (calls : Nat → JoinCall) (position : Nat) (hash : String) :
    (joinAt coin calls position).slot hash = Slot.before hash calls position := by
  induction position with
  | zero => rfl
  | succ position ih => rw [joinAt, slot_next (joinAt_sound coin calls position), ih, Slot.before]

theorem coin_next (join : MempoolJoin) (call : JoinCall) : (join.next call).coin = join.coin := by
  cases call with
  | offer input now =>
      simp only [MempoolJoin.next, offer]
      split
      · rfl
      · split <;> rfl
  | expire order now =>
      exact (foldl_expireOne_keeps now (join.expired_nodup order now) join [] 0 "").1

theorem joinAt_coin (position : Nat) : (joinAt coin calls position).coin = coin := by
  induction position with
  | zero => rfl
  | succ position ih => rw [joinAt, coin_next, ih]

/-- The emission of a hash is the emission of its slot. -/
theorem emissionAt_eq (position : Nat) (hash : String) :
    emissionAt coin calls position hash =
      match Slot.emitted hash calls position with
      | some entry => entry.events coin hash
      | none => [] := by
  have sound := joinAt_sound coin calls position
  unfold emissionAt eventsAt Slot.emitted
  rw [returned_eq, joinAt_coin, ← joinAt_slot coin]
  cases emits : ((joinAt coin calls position).slot hash).emits hash (calls position) with
  | some entry =>
      exact ofHash_flatMap_of_mem (emissions_keys_nodup _ _) ((mem_emissions sound).mpr emits) coin
  | none =>
      refine ofHash_flatMap_of_notMem (fun member => ?_) coin
      obtain ⟨⟨other, entry⟩, emitted, rfl⟩ := List.mem_map.mp member
      rw [(mem_emissions sound).mp emitted] at emits
      cases emits

theorem emissionAt_of_some {position : Nat} {hash : String} {entry : Entry}
    (emits : Slot.emitted hash calls position = some entry) :
    emissionAt coin calls position hash = entry.events coin hash := by
  rw [emissionAt_eq, emits]

/-- Every emitted entry of a slot is sound. -/
theorem emitted_sound {position : Nat} {hash : String} {entry : Entry}
    (emits : Slot.emitted hash calls position = some entry) : entry.Sound := by
  have sound := joinAt_sound "" calls position
  rw [Slot.emitted, ← joinAt_slot ""] at emits
  exact sound.emits ((mem_emissions sound).mpr emits)

theorem emissionAt_eq_nil {position : Nat} {hash : String} :
    emissionAt coin calls position hash = [] ↔ Slot.emitted hash calls position = none := by
  rw [emissionAt_eq]
  cases emits : Slot.emitted hash calls position with
  | none => simp
  | some entry => simpa using (emitted_sound emits).events_ne_nil coin hash

theorem silent_iff {hash : String} {first last : Nat} :
    Silent coin calls hash first last ↔ Slot.Quiet hash calls first last :=
  forall_congr' fun _ => imp_congr_right fun _ => imp_congr_right fun _ => emissionAt_eq_nil

theorem offersOpen_iff {position : Nat} {input : JoinInput} {now : Nat} :
    OffersOpen coin calls position input now ↔ calls position = .offer input now ∧
      (Slot.before input.hash calls position).isFinished = false := by
  refine and_congr_right fun _ => ?_
  rw [← joinAt_slot coin, slot_isFinished, Option.isSome_eq_false_iff,
    Option.isNone_iff_eq_none, AList.lookup_eq_none]

theorem firstCopy_iff {position : Nat} {input : JoinInput} :
    FirstCopy coin calls position input ↔ Slot.First input.hash calls position input := by
  constructor
  · rintro ⟨⟨now, offered⟩, earlier⟩
    obtain ⟨offers, notFinished⟩ := offersOpen_iff.mp offered
    refine ⟨⟨now, offers⟩, rfl, notFinished, fun before within other otherOffers own leg => ?_⟩
    obtain ⟨time, call⟩ := otherOffers
    by_contra open_
    rw [not_or, not_not, Bool.not_eq_true] at open_
    refine earlier before within other time ?_ own leg (silent_iff.mpr open_.2)
    refine offersOpen_iff.mpr ⟨call, ?_⟩
    rw [own]
    exact open_.1
  · rintro isFirst
    obtain ⟨now, offers⟩ := isFirst.offers
    refine ⟨⟨now, offersOpen_iff.mpr ⟨offers, isFirst.notFinished⟩⟩, ?_⟩
    intro earlier within other time offered own leg silent
    obtain ⟨call, notFinished⟩ := offersOpen_iff.mp offered
    rw [own] at notFinished
    rcases isFirst.earlier earlier within other ⟨time, call⟩ own leg with finished | emission
    · rw [notFinished] at finished
      cases finished
    · exact emission (silent_iff.mp silent)

theorem FirstCopy.carries {position last : Nat} {input : JoinInput} {entry : Entry}
    (first : FirstCopy coin calls position input) (after : position ≤ last)
    (silent : Silent coin calls input.hash position last)
    (emits : Slot.emitted input.hash calls last = some entry) :
    Carries coin calls position input last := by
  have copied := (firstCopy_iff.mp first).copy_emitted after (silent_iff.mp silent) emits
  refine ⟨after, silent, entry.event coin input.hash input.provider input.stamps, ?_, rfl, rfl⟩
  rw [emissionAt_of_some emits, Entry.filter_events, copied]
  rfl

theorem Carries.emission_ne_nil {position last : Nat} {input : JoinInput}
    (carries : Carries coin calls position input last) :
    emissionAt coin calls last input.hash ≠ [] := by
  obtain ⟨_, _, event, only, _⟩ := carries
  intro empty
  rw [empty] at only
  cases only

/-- A copy is carried by one emission only. -/
theorem Carries.unique {position first second : Nat} {input : JoinInput}
    (one : Carries coin calls position input first)
    (other : Carries coin calls position input second) : first = second := by
  rcases Nat.lt_trichotomy first second with before | same | after
  · exact absurd (other.2.1 first one.1 before) one.emission_ne_nil
  · exact same
  · exact absurd (one.2.1 second other.1 after) other.emission_ne_nil

/-- Two first copies of one leg are not carried by one emission. -/
theorem FirstCopy.unique {first second last : Nat} {one other : JoinInput}
    (isFirst : FirstCopy coin calls first one) (isOther : FirstCopy coin calls second other)
    (carries : Carries coin calls first one last) (within : second ≤ last)
    (sameHash : one.hash = other.hash) (sameLeg : one.provider = other.provider) :
    ¬first < second := by
  intro before
  obtain ⟨now, offered⟩ := isFirst.1
  refine isOther.2 first before one now offered sameHash sameLeg ?_
  rw [← sameHash]
  exact fun position after earlier =>
    carries.2.1 position after (Nat.lt_of_lt_of_le earlier within)

theorem carries_first_copies (ordered : Monotone fun position => (calls position).now) :
    CarriesFirstCopies coin calls := by
  intro position input isFirst first other now before offered own silent last order late after
    expires overdue
  obtain ⟨call, notFinished⟩ := offersOpen_iff.mp offered
  rw [own] at notFinished
  have strictly : first < last := by
    rcases Nat.lt_or_eq_of_le (Nat.le_trans before after) with strictly | rfl
    · exact strictly
    · rw [call] at expires
      cases expires
  have emission : ∃ carrying, position ≤ carrying ∧ carrying ≤ last ∧
      Slot.emitted input.hash calls carrying ≠ none := by
    by_contra none
    push Not at none
    refine Slot.expiry_emits ordered strictly call own notFinished expires overdue ?_
    exact (silent_iff.mp silent).trans fun carrying after within =>
      none carrying after (Nat.le_of_lt_succ within)
  classical
  obtain ⟨carrying, ⟨laterCopy, within, emits⟩, least⟩ :=
    (⟨Nat.find emission, Nat.find_spec emission, fun earlier => Nat.find_min emission⟩ :
      ∃ carrying, (position ≤ carrying ∧ carrying ≤ last ∧
        Slot.emitted input.hash calls carrying ≠ none) ∧ ∀ earlier < carrying,
          ¬(position ≤ earlier ∧ earlier ≤ last ∧
            Slot.emitted input.hash calls earlier ≠ none))
  have quiet : Silent coin calls input.hash position carrying := by
    intro earlier after before
    by_contra early
    exact least earlier before ⟨after, Nat.le_trans (Nat.le_of_lt before) within,
      fun none => early (emissionAt_eq_nil.mpr none)⟩
  obtain ⟨entry, emits⟩ := Option.ne_none_iff_exists'.mp emits
  have carries := isFirst.carries laterCopy quiet emits
  exact ⟨carrying, ⟨within, carries⟩, fun other carried => carried.2.unique carries⟩

/-- Every event is a leg of an emitted entry. -/
theorem mem_eventsAt {position : Nat} {event : MarketEvent}
    (returned : event ∈ eventsAt coin calls position) :
    ∃ hash entry, Slot.emitted hash calls position = some entry ∧
      event ∈ entry.events coin hash := by
  rw [eventsAt, returned_eq, joinAt_coin] at returned
  obtain ⟨⟨hash, entry⟩, emitted, member⟩ := List.mem_flatMap.mp returned
  refine ⟨hash, entry, ?_, member⟩
  rw [Slot.emitted, ← joinAt_slot coin]
  exact (mem_emissions (joinAt_sound coin calls position)).mp emitted

/-- Every leg of an emitted entry is of a first copy that the emission carries. -/
theorem exists_carried (coin : String) {last : Nat} {hash : String} {entry : Entry}
    {provider : Provider}
    {stamps : Nat × Nat × Option Nat} (emits : Slot.emitted hash calls last = some entry)
    (held : entry.copy provider = some stamps) :
    ∃ position input, FirstCopy coin calls position input ∧
      Carries coin calls position input last ∧ input.hash = hash ∧ input.provider = provider ∧
      input.stamps = stamps := by
  obtain ⟨first, within, source, isFirst, leg, same, quiet⟩ := Slot.emitted_first emits held
  have own := isFirst.own
  subst own
  have copied : FirstCopy coin calls first source := firstCopy_iff.mpr isFirst
  exact ⟨first, source, copied, copied.carries within (silent_iff.mpr quiet) emits, rfl, leg, same⟩

theorem carries_nothing_else : CarriesNothingElse coin calls := by
  intro last event returned
  obtain ⟨hash, entry, emits, member⟩ := mem_eventsAt returned
  obtain ⟨stamps, held, _⟩ := Entry.mem_events.mp member
  obtain ⟨position, input, isFirst, carries, own, leg, _⟩ :=
    exists_carried coin emits held
  have content := Entry.content_events member
  rw [← own] at content
  refine ⟨position, ⟨input, isFirst, carries, leg.symm, content⟩, ?_⟩
  rintro second ⟨other, isOther, otherCarries, otherLeg, otherContent⟩
  have sameHash : other.hash = input.hash :=
    ContentKey.mempool.inj (otherContent.symm.trans content)
  have sameLeg : other.provider = input.provider := otherLeg.symm.trans leg.symm
  exact Nat.le_antisymm
    (Nat.not_lt.mp (isFirst.unique isOther carries otherCarries.1 sameHash.symm sameLeg.symm))
    (Nat.not_lt.mp (isOther.unique isFirst otherCarries carries.1 sameHash sameLeg))

/-- Emitted hashes are in lower case. -/
theorem toAsciiLowercase_emitted {position : Nat} {hash : String} {entry : Entry}
    (emits : Slot.emitted hash calls position = some entry) : toAsciiLowercase hash = hash := by
  obtain ⟨provider, stamps, held⟩ := (emitted_sound emits).exists_copy
  obtain ⟨_, input, _, _, own, _⟩ := exists_carried "" emits held
  rw [← own]
  exact toAsciiLowercase_idem input.txHash

theorem remembers_done (ordered : Monotone fun position => (calls position).now) :
    RemembersDone coin calls := by
  intro first last event other firstHash lastHash before returned otherReturned content
    otherContent sameCase
  obtain ⟨hash, entry, emits, member⟩ := mem_eventsAt returned
  obtain ⟨otherHash, otherEntry, otherEmits, otherMember⟩ := mem_eventsAt otherReturned
  cases (Entry.content_events member).symm.trans content
  cases (Entry.content_events otherMember).symm.trans otherContent
  rw [toAsciiLowercase_emitted emits, toAsciiLowercase_emitted otherEmits] at sameCase
  subst sameCase
  have closed : Slot.before firstHash calls (first + 1) = .finished (calls first).now :=
    (Slot.emits_some emits).2.1
  obtain ⟨position, after, within, late⟩ :=
    Slot.finished_until before closed (Slot.emits_some otherEmits).1
  exact Nat.le_trans late (ordered (Nat.le_of_lt within))

theorem shares_reference : SharesReference coin calls := by
  intro last hash emission
  cases emits : Slot.emitted hash calls last with
  | none => exact absurd (emissionAt_eq_nil.mpr emits) emission
  | some entry =>
      have sound := emitted_sound emits
      have least := sound.isLeast_referenceMs
      rw [emissionAt_of_some emits]
      refine ⟨entry.referenceMs, fun event member => ?_, ?_⟩
      · obtain ⟨stamps, held, same⟩ := Entry.mem_events.mp member
        rw [← same]
        exact ⟨rfl, least.2 (Or.inr ⟨_, stamps, held, rfl⟩)⟩
      · have times : {ms | (∃ event ∈ entry.events coin hash, event.receivedWallMs = ms) ∨
              ∃ position input, FirstCopy coin calls position input ∧
                Carries coin calls position input last ∧ input.hash = hash ∧
                input.firstRecvMs = some ms} =
            {ms | entry.firstRecvMs = some ms ∨
              ∃ provider stamps, entry.copy provider = some stamps ∧ stamps.2.1 = ms} := by
          ext ms
          constructor
          · rintro (⟨event, member, same⟩ | ⟨position, input, isFirst, carries, rfl, receipt⟩)
            · obtain ⟨stamps, held, isEvent⟩ := Entry.mem_events.mp member
              rw [← isEvent] at same
              exact Or.inr ⟨_, stamps, held, same⟩
            · have copied := (firstCopy_iff.mp isFirst).copy_emitted carries.1
                (silent_iff.mp carries.2.1) emits
              exact Or.inl (Entry.firstRecvMs_of_copy copied receipt)
          · rintro (receipt | ⟨provider, stamps, held, rfl⟩)
            · obtain ⟨stamps, held, same⟩ := sound.copy_of_firstRecvMs receipt
              obtain ⟨position, input, isFirst, carries, own, _, same'⟩ :=
                exists_carried coin emits held
              refine Or.inr ⟨position, input, isFirst, carries, own, ?_⟩
              rw [← same, ← same']
              rfl
            · exact Or.inl ⟨entry.event coin hash provider stamps,
                Entry.mem_events.mpr ⟨stamps, held, rfl⟩, rfl⟩
        rw [times]
        exact least

/-- The events of an emitted hash. -/
theorem ofHash_returned {position : Nat} {hash : String} {entry : Entry}
    (emitted : (hash, entry) ∈ (joinAt coin calls position).emissions (calls position)) :
    ofHash hash (eventsAt coin calls position) = entry.events coin hash := by
  rw [eventsAt, returned_eq, joinAt_coin]
  exact ofHash_flatMap_of_mem (emissions_keys_nodup _ _) emitted coin

theorem counts_gaps : CountsGaps coin calls := by
  intro count
  refine congrArg List.sum (List.map_congr_left fun position _ => ?_)
  have sound := joinAt_sound coin calls position
  have hashes : ((eventsAt coin calls position).filterMap txHashOf).dedup.Perm
      (((joinAt coin calls position).emissions (calls position)).map Prod.fst) := by
    refine (List.perm_ext_iff_of_nodup (List.nodup_dedup _) (emissions_keys_nodup _ _)).mpr
      fun hash => ?_
    rw [List.mem_dedup, eventsAt, returned_eq, List.mem_filterMap, List.mem_map]
    constructor
    · rintro ⟨event, member, named⟩
      obtain ⟨⟨other, entry⟩, emitted, own⟩ := List.mem_flatMap.mp member
      rw [txHashOf, Entry.content_events own] at named
      cases named
      exact ⟨(other, entry), emitted, rfl⟩
    · rintro ⟨⟨other, entry⟩, emitted, rfl⟩
      obtain ⟨event, own⟩ := List.exists_mem_of_ne_nil _
        ((sound.emits emitted).events_ne_nil (joinAt coin calls position).coin other)
      refine ⟨event, List.mem_flatMap.mpr ⟨_, emitted, own⟩, ?_⟩
      rw [txHashOf, Entry.content_events own]
  rw [gapsAt, vpcGaps_eq, withoutVpc, ← List.countP_eq_length_filter, hashes.countP_eq,
    List.countP_map]
  refine List.countP_congr fun emission emitted => ?_
  simp only [Function.comp_apply, ofHash_returned emitted]
  rw [Entry.all_events_ne_vpc]

/--
The mempool join emits every leg exactly once under one reference, whatever copies the feeds
offer: it carries every first copy and nothing else, remembers what it emitted, gives the events
of an emission the earliest time, and counts the emissions without the box's leg.
-/
theorem mempool_join_once (coin : String) (calls : Nat → JoinCall)
    (ordered : Monotone fun position => (calls position).now) :
    CarriesFirstCopies coin calls ∧ CarriesNothingElse coin calls ∧ RemembersDone coin calls ∧
      SharesReference coin calls ∧ CountsGaps coin calls :=
  ⟨carries_first_copies ordered, carries_nothing_else, remembers_done ordered, shares_reference,
    counts_gaps⟩

end Once

/-- Both legs of one bundle, the endpoint's repeated before and after, and a bundle that the sentry
never saw. -/
def sampleOffers : List JoinCall :=
  [.offer (.grpc "0xAB" 0 100) 0, .offer (.grpc "0xAb" 1 101) 1, .offer (.bundle "0xab" 99 2 102) 2,
    .offer (.grpc "0xAB" 3 103) 3, .offer (.grpc "0xCD" 4 104) 4]

/-- The offers, then an expiry after the other from the deadline on. -/
def sampleJoinCalls (position : Nat) : JoinCall :=
  sampleOffers[position]?.getD (.expire IterationOrder.stored (joinDeadline + position))

theorem now_sampleJoinCalls (position : Nat) :
    (sampleJoinCalls position).now =
      if position < sampleOffers.length then position else joinDeadline + position := by
  unfold sampleJoinCalls
  by_cases offered : position < sampleOffers.length
  · rw [if_pos offered]
    have each : ∀ position < sampleOffers.length,
        (sampleOffers[position]?.getD (.expire .stored 0)).now = position := by decide
    have here := each position offered
    rwa [List.getElem?_eq_getElem offered, Option.getD_some] at here ⊢
  · rw [if_neg offered, List.getElem?_eq_none (Nat.le_of_not_lt offered)]
    rfl

theorem sampleJoinCalls_ordered : Monotone fun position => (sampleJoinCalls position).now := by
  intro first second before
  simp only [now_sampleJoinCalls]
  split
  · split
    · exact before
    · exact Nat.le_add_left_of_le before
  next after =>
    rw [if_neg fun offered => after (Nat.lt_of_le_of_lt before offered)]
    exact Nat.add_le_add_left before joinDeadline

/-- The second leg emits both first copies at the sentry's receipt time, and the bundle without a
sentry's line is emitted alone as a gap. -/
theorem mempool_join_once_sample :
    ((List.range 6).map fun position => (eventsAt "BTC" sampleJoinCalls position).map fun event =>
        (event.provider, event.receivedWallMs, event.key.eventMs)) =
      [[], [], [(.quickNodeGrpc, 100, 99), (.quickNodeVpc, 102, 99)], [], [],
        [(.quickNodeGrpc, 104, 104)]] ∧
    (List.range 6).map (gapsAt "BTC" sampleJoinCalls) = [0, 0, 0, 0, 0, 1] ∧
    CarriesFirstCopies "BTC" sampleJoinCalls ∧ CarriesNothingElse "BTC" sampleJoinCalls ∧
      RemembersDone "BTC" sampleJoinCalls ∧ SharesReference "BTC" sampleJoinCalls ∧
      CountsGaps "BTC" sampleJoinCalls :=
  ⟨by decide +kernel, by decide +kernel,
    mempool_join_once "BTC" sampleJoinCalls sampleJoinCalls_ordered⟩

end MarketBenchmark.Feeds
