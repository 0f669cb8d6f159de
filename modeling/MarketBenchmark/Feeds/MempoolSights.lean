import MarketBenchmark.Feeds.MempoolOnce

/-!
# What the events of the join go back to

Each leg of an entry is that of an input which the join was offered.  So an
event of the join goes back to one input of its leg, and its time to the first
sight of the bundle: no sight by that input is earlier, and one input of the
hash has exactly that sight.
-/

namespace MarketBenchmark.Feeds

open MempoolJoin

/-- A time at which the box saw the bundle by an input: its arrival, or the sentry's receipt. -/
def JoinInput.Sights (input : JoinInput) (ms : Nat) : Prop :=
  input.receivedWallMs = ms ∨ input.firstRecvMs = some ms

/-- Every leg of the entry is that of a known input of the hash. -/
def Entry.Backed (Known : JoinInput → Prop) (hash : String) (entry : Entry) : Prop :=
  ∀ provider stamps, entry.copy provider = some stamps →
    ∃ input, Known input ∧ input.hash = hash ∧ input.provider = provider ∧ input.stamps = stamps

/-- The join holds entries of known inputs only. -/
structure MempoolJoin.Backed (Known : JoinInput → Prop) (join : MempoolJoin) : Prop where
  sound : join.Sound
  entries : ∀ hash, (join.slot hash).entry.Backed Known hash

/-- Known inputs explain an event of a join: one of its leg has its stamps, and another of the
bundle had the first sight of it. -/
structure Explains (Known : JoinInput → Prop) (coin : String) (event : MarketEvent)
    (input first : JoinInput) : Prop where
  key : event.key =
    { coin := coin, eventMs := event.key.eventMs, content := .mempool input.hash }
  known : Known input
  provider : input.provider = event.provider
  received : input.received = event.received
  receivedWallMs : input.receivedWallMs = event.receivedWallMs
  earliest : ∀ ms, input.Sights ms → event.key.eventMs ≤ ms
  firstKnown : Known first
  sameHash : first.hash = input.hash
  sighted : first.Sights event.key.eventMs

variable {Known More : JoinInput → Prop} {hash : String} {entry : Entry} {join : MempoolJoin}

theorem Entry.backed_empty : ({} : Entry).Backed Known hash := by
  intro provider stamps held
  cases (Entry.copy_empty provider).symm.trans held

theorem Entry.Backed.mono (backed : entry.Backed Known hash)
    (grows : ∀ input, Known input → More input) : entry.Backed More hash := by
  intro provider stamps held
  obtain ⟨input, known, rest⟩ := backed provider stamps held
  exact ⟨input, grows input known, rest⟩

theorem Entry.Backed.record (backed : entry.Backed Known hash) {input : JoinInput}
    (known : Known input) (own : input.hash = hash) (now : Nat) :
    (entry.record input now).Backed Known hash := by
  intro provider stamps held
  rw [Entry.copy_record] at held
  split at held
  · next sameLeg =>
      cases before : entry.copy provider with
      | none =>
          rw [before] at held
          exact ⟨input, known, own, sameLeg.symm, Option.some.inj held⟩
      | some earlier =>
          rw [before] at held
          cases held
          exact backed provider _ before
  · exact backed provider stamps held

/-- An event of a backed entry is explained. -/
theorem Entry.Backed.explains (backed : entry.Backed Known hash) (sound : entry.Sound)
    {coin : String} {event : MarketEvent} (member : event ∈ entry.events coin hash) :
    ∃ input first, Explains Known coin event input first := by
  obtain ⟨stamps, held, same⟩ := Entry.mem_events.mp member
  obtain ⟨input, known, rfl, sameLeg, rfl⟩ := backed _ stamps held
  have least := sound.isLeast_referenceMs
  have eventMs : event.key.eventMs = entry.referenceMs := by rw [← same]; rfl
  have firstSight : ∃ first, Known first ∧ first.hash = input.hash ∧
      first.Sights entry.referenceMs := by
    rcases least.1 with receipt | ⟨provider, stamps, copied, wall⟩
    · obtain ⟨stamps, copied, receipt⟩ := sound.copy_of_firstRecvMs receipt
      obtain ⟨first, isKnown, sameHash, _, rfl⟩ := backed _ stamps copied
      exact ⟨first, isKnown, sameHash, Or.inr receipt⟩
    · obtain ⟨first, isKnown, sameHash, _, rfl⟩ := backed _ stamps copied
      exact ⟨first, isKnown, sameHash, Or.inl wall⟩
  obtain ⟨first, firstKnown, sameHash, sighted⟩ := firstSight
  refine ⟨input, first, ?_, known, sameLeg, ?_, ?_, fun ms sights => ?_, firstKnown, sameHash, ?_⟩
  · rw [← same]
    rfl
  · rw [← same]
    rfl
  · rw [← same]
    rfl
  · rw [eventMs]
    rcases sights with wall | receipt
    · exact least.2 (Or.inr ⟨_, _, held, wall⟩)
    · exact least.2 (Or.inl (Entry.firstRecvMs_of_copy (sameLeg ▸ held) receipt))
  · rw [eventMs]
    exact sighted

namespace MempoolJoin

theorem backed_new (coin : String) : (new coin).Backed Known where
  sound := .new coin
  entries _ := Entry.backed_empty

theorem Backed.mono (backed : join.Backed Known) (grows : ∀ input, Known input → More input) :
    join.Backed More where
  sound := backed.sound
  entries hash := (backed.entries hash).mono grows

/-- A call that offers nothing unknown keeps the join backed. -/
theorem Backed.next (backed : join.Backed Known) {call : JoinCall}
    (known : ∀ input now, call = .offer input now → Known input) :
    (join.next call).Backed Known := by
  refine ⟨backed.sound.next call, fun hash => ?_⟩
  rw [slot_next backed.sound]
  have before := backed.entries hash
  cases after : (join.slot hash).next hash call with
  | idle => exact Entry.backed_empty
  | finished since => exact Entry.backed_empty
  | waiting entry =>
      rcases Slot.next_eq_waiting after with waits | ⟨input, now, rfl, own, _, recorded⟩
      · rw [waits] at before
        exact before
      · exact recorded ▸ before.record (known input now rfl) own now

/-- The entries that a call emits are backed. -/
theorem Backed.emits (backed : join.Backed Known) {call : JoinCall}
    (known : ∀ input now, call = .offer input now → Known input)
    (emitted : (hash, entry) ∈ join.emissions call) : entry.Backed Known hash := by
  have emits := (mem_emissions backed.sound).mp emitted
  have before := backed.entries hash
  cases call with
  | offer input now =>
      have own : input.hash = hash := by
        by_contra other
        rw [Slot.emits, if_pos (Or.inl other)] at emits
        cases emits
      rw [Slot.emits_offer emits]
      exact before.record (known input now rfl) own now
  | expire order now =>
      cases slot : join.slot hash with
      | idle =>
          rw [slot] at emits
          cases emits
      | finished since =>
          rw [slot] at emits
          cases emits
      | waiting waits =>
          rw [slot] at emits before
          simp only [Slot.emits] at emits
          split at emits
          · cases emits
            exact before
          · cases emits

/-- The events that a call returns are explained. -/
theorem Backed.explains (backed : join.Backed Known) {call : JoinCall}
    (known : ∀ input now, call = .offer input now → Known input) {event : MarketEvent}
    (returned : event ∈ join.returned call) :
    ∃ input first, Explains Known join.coin event input first := by
  rw [returned_eq] at returned
  obtain ⟨⟨hash, entry⟩, emitted, member⟩ := List.mem_flatMap.mp returned
  exact (backed.emits known emitted).explains (backed.sound.emits emitted) member

end MempoolJoin

end MarketBenchmark.Feeds
