import MarketBenchmark.Feeds.MempoolJoin

/-!
# What the mempool join emits

A sequence of calls is followed from one hash: its slot takes the legs that
arrive while it is not finished, keeps the first copy of each, and emits them
together at the second leg or at the first expiry after the deadline.
-/

namespace MarketBenchmark.Feeds

open MempoolJoin

/-! ## One slot along the calls -/

namespace Slot

variable (hash : String) (calls : Nat → JoinCall)

/-- The slot of the hash before each call. -/
def before : Nat → Slot
  | 0 => .idle
  | position + 1 => (before position).next hash (calls position)

/-- The entry of the hash that the call at the position emits. -/
def emitted (position : Nat) : Option Entry :=
  (before hash calls position).emits hash (calls position)

/-- No call from one position up to another emits the hash. -/
def Quiet (first last : Nat) : Prop :=
  ∀ position, first ≤ position → position < last → emitted hash calls position = none

/-- The call offers the input. -/
def Offers (position : Nat) (input : JoinInput) : Prop :=
  ∃ now, calls position = .offer input now

/-- The input is the first copy of its leg since the slot was last finished. -/
structure First (position : Nat) (input : JoinInput) : Prop where
  offers : Offers calls position input
  own : input.hash = hash
  notFinished : (before hash calls position).isFinished = false
  earlier : ∀ earlier < position, ∀ other, Offers calls earlier other → other.hash = hash →
    other.provider = input.provider →
      (before hash calls earlier).isFinished ∨ ¬Quiet hash calls earlier position

/-- A later entry of the same opening. -/
structure Grows (entry later : Entry) : Prop where
  firstSeen : ∀ seen, entry.firstSeen = some seen → later.firstSeen = some seen
  copies : ∀ provider stamps, entry.copy provider = some stamps →
    later.copy provider = some stamps

theorem Grows.refl (entry : Entry) : Grows entry entry :=
  ⟨fun _ same => same, fun _ _ same => same⟩

theorem Grows.trans {entry later last : Entry} (first : Grows entry later)
    (second : Grows later last) : Grows entry last :=
  ⟨fun seen same => second.firstSeen seen (first.firstSeen seen same),
    fun provider stamps same => second.copies provider stamps (first.copies provider stamps same)⟩

theorem Grows.record (entry : Entry) (input : JoinInput) (now : Nat) :
    Grows entry (entry.record input now) := by
  constructor
  · intro seen same
    rw [Entry.firstSeen_record, same, Option.getD_some]
  · intro provider stamps same
    rw [Entry.copy_record, same, Option.getD_some, ite_self]

variable {hash} {calls}

theorem Quiet.mono {first last later : Nat} (quiet : Quiet hash calls first later)
    (before : last ≤ later) : Quiet hash calls first last :=
  fun position after earlier => quiet position after (Nat.lt_of_lt_of_le earlier before)

theorem Quiet.later {first second last : Nat} (quiet : Quiet hash calls first last)
    (after : first ≤ second) : Quiet hash calls second last :=
  fun position within earlier => quiet position (Nat.le_trans after within) earlier

theorem Quiet.trans {first middle last : Nat} (front : Quiet hash calls first middle)
    (back : Quiet hash calls middle last) : Quiet hash calls first last := by
  intro position after earlier
  rcases Nat.lt_or_ge position middle with inFront | inBack
  · exact front position after inFront
  · exact back position inBack earlier

theorem quiet_empty (position : Nat) : Quiet hash calls position position :=
  fun _ after earlier => absurd earlier (Nat.not_lt.mpr after)

theorem Quiet.succ {first last : Nat} (quiet : Quiet hash calls first last)
    (here : emitted hash calls last = none) : Quiet hash calls first (last + 1) := by
  intro position after earlier
  rcases Nat.lt_succ_iff_lt_or_eq.mp earlier with within | rfl
  · exact quiet position after within
  · exact here

/-! ## One call -/

/-- A call that emits the hash finishes its slot, which was not finished. -/
theorem emits_some {slot : Slot} {call : JoinCall} {entry : Entry}
    (emitted : slot.emits hash call = some entry) :
    slot.isFinished = false ∧ slot.next hash call = finished call.now ∧
      Grows slot.entry entry := by
  cases call with
  | offer input now =>
      simp only [emits] at emitted
      split at emitted
      · cases emitted
      next taken =>
        split at emitted
        next full =>
          cases emitted
          simp only [not_or, Bool.not_eq_true] at taken
          refine ⟨taken.2, ?_, Grows.record slot.entry input now⟩
          simp [next, taken, full, JoinCall.now]
        · cases emitted
  | expire order now =>
      cases slot with
      | waiting waits =>
          simp only [emits] at emitted
          split at emitted
          next late =>
            cases emitted
            exact ⟨rfl, by simp [next, late, JoinCall.now], Grows.refl _⟩
          · cases emitted
      | idle => cases emitted
      | finished since => cases emitted

/-- An entry waits on until the hash is emitted. -/
theorem next_waiting {entry : Entry} {call : JoinCall}
    (quiet : (waiting entry).emits hash call = none) :
    ∃ later, (waiting entry).next hash call = waiting later ∧ Grows entry later := by
  cases call with
  | offer input now =>
      by_cases own : input.hash = hash
      · simp only [emits, own, ne_eq, not_true_eq_false, isFinished, Bool.false_eq_true, or_self,
          if_false] at quiet
        split at quiet
        · cases quiet
        next open_ =>
          refine ⟨entry.record input now, ?_, Grows.record entry input now⟩
          simp only [next, own, ne_eq, not_true_eq_false, isFinished, Bool.false_eq_true, or_self,
            if_false]
          exact if_neg open_
      · exact ⟨entry, if_pos (Or.inl own), Grows.refl entry⟩
  | expire order now =>
      simp only [emits] at quiet
      split at quiet
      · cases quiet
      next early => exact ⟨entry, if_neg early, Grows.refl entry⟩

/-- An offer to a slot that is not finished is recorded. -/
theorem next_offer {slot : Slot} {input : JoinInput} {now : Nat} (own : input.hash = hash)
    (notFinished : slot.isFinished = false) (quiet : slot.emits hash (.offer input now) = none) :
    slot.next hash (.offer input now) = waiting (slot.entry.record input now) := by
  have taken : ¬(input.hash ≠ hash ∨ slot.isFinished = true) := by simp [own, notFinished]
  simp only [emits, if_neg taken] at quiet
  simp only [next, if_neg taken]
  split at quiet
  · cases quiet
  next open_ => exact if_neg open_

/-- Only a waiting slot holds a leg. -/
theorem waiting_of_copy {slot : Slot} {provider : Provider} {stamps : Nat × Nat × Option Nat}
    (held : slot.entry.copy provider = some stamps) :
    ∃ entry, slot = waiting entry ∧ entry.copy provider = some stamps := by
  cases slot with
  | waiting entry => exact ⟨entry, rfl, held⟩
  | idle => cases (Entry.copy_empty provider).symm.trans held
  | finished since => cases (Entry.copy_empty provider).symm.trans held

/-- How a slot comes to wait with an entry. -/
theorem next_eq_waiting {slot : Slot} {call : JoinCall} {entry : Entry}
    (waits : slot.next hash call = waiting entry) :
    slot = waiting entry ∨ ∃ input now, call = .offer input now ∧ input.hash = hash ∧
      slot.isFinished = false ∧ slot.entry.record input now = entry := by
  cases call with
  | offer input now =>
      simp only [next] at waits
      split at waits
      · exact Or.inl waits
      next taken =>
        simp only [not_or, not_not, Bool.not_eq_true] at taken
        split at waits
        · cases waits
        · exact Or.inr ⟨input, now, rfl, taken.1, taken.2, waiting.inj waits⟩
  | expire order now =>
      cases slot with
      | waiting earlier =>
          simp only [next] at waits
          split at waits
          · cases waits
          · exact Or.inl waits
      | idle => cases waits
      | finished since =>
          simp only [next] at waits
          split at waits <;> cases waits

theorem emits_offer {slot : Slot} {input : JoinInput} {now : Nat} {entry : Entry}
    (emitted : slot.emits hash (.offer input now) = some entry) :
    entry = slot.entry.record input now := by
  simp only [emits] at emitted
  split at emitted
  · cases emitted
  · split at emitted
    · exact (Option.some.inj emitted).symm
    · cases emitted

/-! ## Runs -/

theorem waits {first last : Nat} {entry : Entry} (after : first ≤ last)
    (atFirst : before hash calls first = waiting entry) (quiet : Quiet hash calls first last) :
    ∃ later, before hash calls last = waiting later ∧ Grows entry later := by
  induction last, after using Nat.le_induction with
  | base => exact ⟨entry, atFirst, Grows.refl entry⟩
  | succ position after ih =>
      obtain ⟨middle, atPosition, grows⟩ := ih (quiet.mono (Nat.le_succ position))
      have quietHere := quiet position after (Nat.lt_succ_self position)
      rw [emitted, atPosition] at quietHere
      obtain ⟨later, stepped, growsHere⟩ := next_waiting quietHere
      refine ⟨later, ?_, grows.trans growsHere⟩
      rw [before, atPosition, stepped]

/-- An offer to a slot that is not finished waits until the hash is emitted. -/
theorem offer_waits {first last : Nat} {input : JoinInput} {now : Nat} (after : first < last)
    (offers : calls first = .offer input now) (own : input.hash = hash)
    (notFinished : (before hash calls first).isFinished = false)
    (quiet : Quiet hash calls first last) :
    ∃ later, before hash calls last = waiting later ∧
      Grows ((before hash calls first).entry.record input now) later := by
  refine waits after ?_ (quiet.later (Nat.le_succ first))
  have quietHere := quiet first (Nat.le_refl first) after
  rw [emitted, offers] at quietHere
  rw [before, offers, next_offer own notFinished quietHere]

/-- An offer to a slot that is not finished goes with the next emission. -/
theorem offer_emitted {first last : Nat} {input : JoinInput} {now : Nat} {entry : Entry}
    (after : first ≤ last) (offers : calls first = .offer input now) (own : input.hash = hash)
    (notFinished : (before hash calls first).isFinished = false)
    (quiet : Quiet hash calls first last) (emits : emitted hash calls last = some entry) :
    Grows ((before hash calls first).entry.record input now) entry := by
  rcases Nat.lt_or_eq_of_le after with later | rfl
  · obtain ⟨waits, atLast, grows⟩ := offer_waits later offers own notFinished quiet
    have kept := (emits_some emits).2.2
    rw [atLast] at kept
    exact grows.trans kept
  · rw [emitted, offers] at emits
    rw [emits_offer emits]
    exact Grows.refl _

/-- Only a call in which a finished hash is old enough forgets it. -/
theorem finished_until {first last since : Nat} (after : first ≤ last)
    (atFirst : before hash calls first = finished since)
    (reopened : (before hash calls last).isFinished = false) :
    ∃ position, first ≤ position ∧ position < last ∧
      since + doneRetain ≤ (calls position).now := by
  have kept : before hash calls last = finished since ∨ ∃ position, first ≤ position ∧
      position < last ∧ since + doneRetain ≤ (calls position).now := by
    clear reopened
    induction last, after using Nat.le_induction with
    | base => exact Or.inl atFirst
    | succ position after ih =>
        rcases ih with same | ⟨earlier, after, within, late⟩
        · cases call : calls position with
          | offer input now =>
              refine Or.inl ?_
              rw [before, same, call]
              exact if_pos (Or.inr rfl)
          | expire order now =>
              by_cases recent : now - since < doneRetain
              · refine Or.inl ?_
                rw [before, same, call]
                exact if_pos recent
              · refine Or.inr ⟨position, after, Nat.lt_succ_self position, ?_⟩
                have positive : 0 < doneRetain := by decide
                rw [call, JoinCall.now]
                omega
        · exact Or.inr ⟨earlier, after, Nat.lt_succ_of_lt within, late⟩
  rcases kept with same | late
  · rw [same] at reopened
    cases reopened
  · exact late

/-- A waiting entry was first seen before all calls that are still to come. -/
theorem firstSeen_le (ordered : Monotone fun position => (calls position).now) {position : Nat}
    {entry : Entry} (waits : before hash calls position = waiting entry) :
    ∃ seen, entry.firstSeen = some seen ∧ ∀ later, position ≤ later → seen ≤ (calls later).now := by
  induction position generalizing entry with
  | zero => cases waits
  | succ position ih =>
      rcases next_eq_waiting waits with same | ⟨input, now, call, _, notFinished, rfl⟩
      · obtain ⟨seen, first, early⟩ := ih same
        exact ⟨seen, first, fun later after => early later (Nat.le_of_succ_le after)⟩
      · rw [Entry.firstSeen_record]
        cases atPosition : before hash calls position with
        | waiting earlier =>
            obtain ⟨seen, first, early⟩ := ih atPosition
            refine ⟨seen, ?_, fun later after => early later (Nat.le_of_succ_le after)⟩
            rw [Slot.entry, first, Option.getD_some]
        | finished since =>
            rw [atPosition] at notFinished
            cases notFinished
        | idle =>
            refine ⟨now, rfl, fun later after => ?_⟩
            have time := ordered (Nat.le_of_succ_le after)
            simpa only [call, JoinCall.now] using time

/-! ## Where the copies come from -/

/-- A leg that an offer leaves behind is of the first copy of its opening, if that holds of the
legs before. -/
theorem recorded_first {position : Nat} {input : JoinInput} {now : Nat}
    (offers : calls position = .offer input now) (own : input.hash = hash)
    (notFinished : (before hash calls position).isFinished = false)
    (earlier : ∀ entry provider stamps, before hash calls position = waiting entry →
      entry.copy provider = some stamps → ∃ first < position, ∃ source,
        First hash calls first source ∧ source.provider = provider ∧ source.stamps = stamps ∧
          Quiet hash calls first position)
    {provider : Provider} {stamps : Nat × Nat × Option Nat}
    (held : ((before hash calls position).entry.record input now).copy provider = some stamps) :
    ∃ first ≤ position, ∃ source, First hash calls first source ∧ source.provider = provider ∧
      source.stamps = stamps ∧ Quiet hash calls first position := by
  rw [Entry.copy_record] at held
  cases earlierCopy : (before hash calls position).entry.copy provider with
  | some old =>
      rw [earlierCopy, Option.getD_some, ite_self] at held
      cases held
      obtain ⟨entry, atPosition, copied⟩ := waiting_of_copy earlierCopy
      obtain ⟨first, within, found⟩ := earlier entry provider stamps atPosition copied
      exact ⟨first, Nat.le_of_lt within, found⟩
  | none =>
      rw [earlierCopy, Option.getD_none] at held
      split at held
      next same =>
        cases held
        refine ⟨position, Nat.le_refl position, input, ?_, same.symm, rfl, quiet_empty position⟩
        refine ⟨⟨now, offers⟩, own, notFinished, fun first within other offered otherOwn leg => ?_⟩
        by_contra open_
        rw [not_or, not_not, Bool.not_eq_true] at open_
        obtain ⟨time, call⟩ := offered
        obtain ⟨waits, atPosition, grows⟩ :=
          offer_waits within call otherOwn open_.1 open_.2
        have copied : ((before hash calls first).entry.record other time).copy provider =
            some (((before hash calls first).entry.copy provider).getD other.stamps) := by
          rw [Entry.copy_record, if_pos (same.trans leg.symm)]
        rw [atPosition, Slot.entry, grows.copies provider _ copied] at earlierCopy
        cases earlierCopy
      · cases held

/-- Every leg of a waiting entry is of the first copy of its opening. -/
theorem waiting_first {position : Nat} {entry : Entry} {provider : Provider}
    {stamps : Nat × Nat × Option Nat} (waits : before hash calls position = waiting entry)
    (held : entry.copy provider = some stamps) :
    ∃ first < position, ∃ source, First hash calls first source ∧ source.provider = provider ∧
      source.stamps = stamps ∧ Quiet hash calls first position := by
  induction position generalizing entry provider stamps with
  | zero => cases waits
  | succ position ih =>
      have quietHere : emitted hash calls position = none := by
        cases emits : emitted hash calls position with
        | none => rfl
        | some emission =>
            rw [before, (emits_some emits).2.1] at waits
            cases waits
      rcases next_eq_waiting waits with same | ⟨input, now, call, own, notFinished, rfl⟩
      · obtain ⟨first, within, source, isFirst, leg, same, quiet⟩ := ih same held
        exact ⟨first, Nat.lt_succ_of_lt within, source, isFirst, leg, same, quiet.succ quietHere⟩
      · obtain ⟨first, within, source, isFirst, leg, same, quiet⟩ :=
          recorded_first call own notFinished
            (fun entry provider stamps atPosition held => ih atPosition held) held
        exact ⟨first, Nat.lt_succ_of_le within, source, isFirst, leg, same, quiet.succ quietHere⟩

/-- Every leg of an emitted entry is of the first copy of its opening. -/
theorem emitted_first {position : Nat} {entry : Entry} {provider : Provider}
    {stamps : Nat × Nat × Option Nat} (emits : emitted hash calls position = some entry)
    (held : entry.copy provider = some stamps) :
    ∃ first ≤ position, ∃ source, First hash calls first source ∧ source.provider = provider ∧
      source.stamps = stamps ∧ Quiet hash calls first position := by
  cases call : calls position with
  | offer input now =>
      have taken : input.hash = hash := by
        by_contra other
        rw [emitted, call, Slot.emits, if_pos (Or.inl other)] at emits
        cases emits
      have notFinished := (emits_some emits).1
      rw [emitted, call] at emits
      rw [emits_offer emits] at held
      exact recorded_first call taken notFinished
        (fun entry provider stamps waits held => waiting_first waits held) held
  | expire order now =>
      cases atPosition : before hash calls position with
      | waiting waits =>
          have same : waits = entry := by
            rw [emitted, atPosition, call] at emits
            simp only [Slot.emits] at emits
            split at emits
            · exact Option.some.inj emits
            · cases emits
          subst same
          obtain ⟨first, within, found⟩ := waiting_first atPosition held
          exact ⟨first, Nat.le_of_lt within, found⟩
      | idle =>
          rw [emitted, atPosition, call] at emits
          cases emits
      | finished since =>
          rw [emitted, atPosition, call] at emits
          cases emits

/-- A first copy goes with the next emission of its hash. -/
theorem First.copy_emitted {first last : Nat} {input : JoinInput} {entry : Entry}
    (isFirst : First hash calls first input) (after : first ≤ last)
    (quiet : Quiet hash calls first last) (emits : emitted hash calls last = some entry) :
    entry.copy input.provider = some input.stamps := by
  obtain ⟨now, offers⟩ := isFirst.offers
  refine (offer_emitted after offers isFirst.own isFirst.notFinished quiet emits).copies _ _ ?_
  rw [Entry.copy_record, if_pos rfl]
  cases held : (before hash calls first).entry.copy input.provider with
  | none => rfl
  | some stamps =>
      obtain ⟨waits, atFirst, copied⟩ := waiting_of_copy held
      obtain ⟨earlier, within, source, found, leg, _, noEmission⟩ :=
        waiting_first atFirst copied
      rcases isFirst.earlier earlier within source found.offers found.own leg with
        finished | emission
      · rw [found.notFinished] at finished
        cases finished
      · exact absurd noEmission emission

/-- An offer leaves an entry that was first seen no later than the offer. -/
theorem recorded_seen (hash : String) (ordered : Monotone fun position => (calls position).now)
    {position : Nat} {input : JoinInput} {now : Nat} (offers : calls position = .offer input now) :
    ∃ seen ≤ now,
      ((before hash calls position).entry.record input now).firstSeen = some seen := by
  rw [Entry.firstSeen_record]
  cases atPosition : before hash calls position with
  | waiting entry =>
      obtain ⟨seen, first, early⟩ := firstSeen_le ordered atPosition
      have time := early position (Nat.le_refl position)
      rw [offers] at time
      exact ⟨seen, time, by rw [Slot.entry, first, Option.getD_some]⟩
  | idle => exact ⟨now, Nat.le_refl now, rfl⟩
  | finished since => exact ⟨now, Nat.le_refl now, rfl⟩

/-- The first expiry that is late enough for an offer finds its hash emitted. -/
theorem expiry_emits (ordered : Monotone fun position => (calls position).now)
    {first last : Nat} {input : JoinInput} {now late : Nat}
    {order : Foundation.HashMaps.IterationOrder} (after : first < last)
    (offers : calls first = .offer input now) (own : input.hash = hash)
    (notFinished : (before hash calls first).isFinished = false)
    (expires : calls last = .expire order late) (overdue : now + joinDeadline ≤ late) :
    ¬Quiet hash calls first (last + 1) := by
  intro quiet
  obtain ⟨entry, waits, grows⟩ :=
    offer_waits after offers own notFinished (quiet.mono (Nat.le_succ last))
  obtain ⟨seen, early, first⟩ := recorded_seen hash ordered offers
  have quietHere := quiet last (Nat.le_of_lt after) (Nat.lt_succ_self last)
  have isLate : entry.overdue late = true := by
    rw [Entry.overdue, grows.firstSeen seen first]
    exact decide_eq_true (by omega)
  rw [emitted, waits, expires] at quietHere
  simp [Slot.emits, isLate] at quietHere

end Slot

/-! ## Events -/

namespace Entry

/-- The event of one leg. -/
def event (entry : Entry) (coin txHash : String) (provider : Provider)
    (stamps : Nat × Nat × Option Nat) : MarketEvent where
  provider := provider
  key := { coin := coin, eventMs := entry.referenceMs, content := .mempool txHash }
  received := stamps.1
  receivedWallMs := stamps.2.1

theorem filter_events (entry : Entry) (coin txHash : String) (provider : Provider) :
    (entry.events coin txHash).filter (fun event => event.provider = provider) =
      ((entry.copy provider).map (entry.event coin txHash provider)).toList := by
  cases boxLeg : entry.vpc <;> cases endpointLeg : entry.grpc <;> cases provider <;>
    simp [events, copy, boxLeg, endpointLeg, event]

theorem mem_events {entry : Entry} {coin txHash : String} {event : MarketEvent} :
    event ∈ entry.events coin txHash ↔ ∃ stamps, entry.copy event.provider = some stamps ∧
      entry.event coin txHash event.provider stamps = event := by
  have own : event ∈ entry.events coin txHash ↔
      event ∈ (entry.events coin txHash).filter fun other => other.provider = event.provider := by
    simp
  rw [own, filter_events, Option.mem_toList, Option.map_eq_some_iff]

theorem content_events {entry : Entry} {coin txHash : String} {event : MarketEvent}
    (member : event ∈ entry.events coin txHash) : event.key.content = .mempool txHash := by
  obtain ⟨stamps, _, same⟩ := mem_events.mp member
  rw [← same]
  rfl

/-- An entry has an event of the box's leg exactly when it has that leg. -/
theorem all_events_ne_vpc (entry : Entry) (coin txHash : String) :
    ((entry.events coin txHash).all fun event => event.provider ≠ .quickNodeVpc) =
      entry.vpc.isNone := by
  cases boxLeg : entry.vpc <;> cases endpointLeg : entry.grpc <;>
    simp [events, boxLeg, endpointLeg]

theorem Sound.exists_copy {entry : Entry} (sound : entry.Sound) :
    ∃ provider stamps, entry.copy provider = some stamps := by
  rcases sound.hasLeg with leg | leg
  · obtain ⟨stamps, held⟩ := Option.isSome_iff_exists.mp leg
    exact ⟨.quickNodeVpc, _, by rw [copy, held]; rfl⟩
  · obtain ⟨stamps, held⟩ := Option.isSome_iff_exists.mp leg
    exact ⟨.quickNodeGrpc, _, by rw [copy, held]; rfl⟩

/-- The receipt time comes with the box's leg. -/
theorem Sound.copy_of_firstRecvMs {entry : Entry} (sound : entry.Sound) {ms : Nat}
    (receipt : entry.firstRecvMs = some ms) :
    ∃ stamps, entry.copy .quickNodeVpc = some stamps ∧ stamps.2.2 = some ms := by
  cases boxLeg : entry.vpc with
  | none =>
      rw [sound.paired boxLeg] at receipt
      cases receipt
  | some leg => exact ⟨_, by rw [copy, boxLeg]; rfl, receipt⟩

theorem firstRecvMs_of_copy {entry : Entry} {input : JoinInput} {ms : Nat}
    (copied : entry.copy input.provider = some input.stamps)
    (receipt : input.firstRecvMs = some ms) : entry.firstRecvMs = some ms := by
  cases input with
  | grpc txHash received wall => cases receipt
  | bundle txHash firstRecvMs received wall =>
      obtain ⟨leg, _, same⟩ := Option.map_eq_some_iff.mp copied
      rw [← receipt]
      exact (Prod.mk.inj (Prod.mk.inj same).2).2

theorem Sound.events_ne_nil {entry : Entry} (sound : entry.Sound) (coin txHash : String) :
    entry.events coin txHash ≠ [] := by
  rcases sound.hasLeg with leg | leg
  · obtain ⟨stamps, held⟩ := Option.isSome_iff_exists.mp leg
    simp [events, held]
  · obtain ⟨stamps, held⟩ := Option.isSome_iff_exists.mp leg
    simp [events, held]

/-- The times that the reference is the earliest of. -/
theorem mem_times {entry : Entry} {ms : Nat} :
    ms ∈ [entry.firstRecvMs, entry.vpc.map Prod.snd, entry.grpc.map Prod.snd].filterMap id ↔
      entry.firstRecvMs = some ms ∨
        ∃ provider stamps, entry.copy provider = some stamps ∧ stamps.2.1 = ms := by
  simp only [List.mem_filterMap, List.mem_cons, List.not_mem_nil, or_false, id_eq,
    exists_eq_or_imp, exists_eq_left, Option.map_eq_some_iff]
  refine or_congr_right ⟨?_, ?_⟩
  · rintro (⟨leg, held, same⟩ | ⟨leg, held, same⟩)
    · exact ⟨.quickNodeVpc, _, by rw [copy, held]; rfl, same⟩
    · exact ⟨.quickNodeGrpc, _, by rw [copy, held]; rfl, same⟩
  · rintro ⟨provider, stamps, held, same⟩
    cases provider with
    | quickNodeVpc =>
        obtain ⟨leg, found, rfl⟩ := Option.map_eq_some_iff.mp held
        exact Or.inl ⟨leg, found, same⟩
    | quickNodeGrpc =>
        obtain ⟨leg, found, rfl⟩ := Option.map_eq_some_iff.mp held
        exact Or.inr ⟨leg, found, same⟩
    | _ => cases held

/-- The reference is the earliest of the receipt time and the wall times of the legs. -/
theorem Sound.isLeast_referenceMs {entry : Entry} (sound : entry.Sound) :
    IsLeast {ms | entry.firstRecvMs = some ms ∨
      ∃ provider stamps, entry.copy provider = some stamps ∧ stamps.2.1 = ms}
      entry.referenceMs := by
  have same : {ms | entry.firstRecvMs = some ms ∨
      ∃ provider stamps, entry.copy provider = some stamps ∧ stamps.2.1 = ms} =
      {ms | ms ∈ [entry.firstRecvMs, entry.vpc.map Prod.snd,
        entry.grpc.map Prod.snd].filterMap id} :=
    Set.ext fun _ => mem_times.symm
  rw [same, referenceMs]
  cases earliest : ([entry.firstRecvMs, entry.vpc.map Prod.snd,
      entry.grpc.map Prod.snd].filterMap id).min? with
  | some ms => 
      obtain ⟨member, least⟩ := List.min?_eq_some_iff.mp earliest
      exact ⟨member, least⟩
  | none =>
      have empty := List.min?_eq_none_iff.mp earliest
      rcases sound.hasLeg with leg | leg
      · obtain ⟨stamps, held⟩ := Option.isSome_iff_exists.mp leg
        simp [held] at empty
      · obtain ⟨stamps, held⟩ := Option.isSome_iff_exists.mp leg
        simp [held] at empty

end Entry

/-- The events of one hash. -/
def ofHash (hash : String) (events : List MarketEvent) : List MarketEvent :=
  events.filter fun event => event.key.content = .mempool hash

theorem ofHash_events (entry : Entry) (coin txHash hash : String) :
    ofHash hash (entry.events coin txHash) =
      if txHash = hash then entry.events coin txHash else [] := by
  split
  next own =>
    refine List.filter_eq_self.mpr fun event member => ?_
    rw [Entry.content_events member, own]
    exact decide_eq_true rfl
  next other =>
    refine List.filter_eq_nil_iff.mpr fun event member => ?_
    rw [Entry.content_events member]
    simpa using other

theorem ofHash_flatMap_of_notMem {emissions : List (String × Entry)} {hash : String}
    (absent : hash ∉ emissions.map Prod.fst) (coin : String) :
    ofHash hash (emissions.flatMap fun entry => entry.2.events coin entry.1) = [] := by
  refine List.filter_eq_nil_iff.mpr fun event member => ?_
  obtain ⟨⟨other, entry⟩, emitted, own⟩ := List.mem_flatMap.mp member
  rw [Entry.content_events own]
  intro same
  cases of_decide_eq_true same
  exact absent (List.mem_map_of_mem emitted)

theorem ofHash_flatMap_of_mem {emissions : List (String × Entry)} {hash : String} {entry : Entry}
    (distinct : (emissions.map Prod.fst).Nodup) (member : (hash, entry) ∈ emissions)
    (coin : String) :
    ofHash hash (emissions.flatMap fun entry => entry.2.events coin entry.1) =
      entry.events coin hash := by
  obtain ⟨front, back, rfl⟩ := List.append_of_mem member
  rw [List.map_append, List.map_cons, List.nodup_middle, List.nodup_cons, List.mem_append,
    not_or] at distinct
  obtain ⟨⟨notFront, notBack⟩, _⟩ := distinct
  have frontEmpty := ofHash_flatMap_of_notMem notFront coin
  have backEmpty := ofHash_flatMap_of_notMem notBack coin
  unfold ofHash at frontEmpty backEmpty ⊢
  rw [List.flatMap_append, List.flatMap_cons, List.filter_append, List.filter_append, frontEmpty,
    backEmpty, List.nil_append, List.append_nil]
  have own := ofHash_events entry coin hash hash
  rw [if_pos rfl] at own
  exact own

end MarketBenchmark.Feeds
