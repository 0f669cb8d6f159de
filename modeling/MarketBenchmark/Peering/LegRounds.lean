import MarketBenchmark.Peering.Legs
import MarketBenchmark.Peering.BlockReady
import MarketBenchmark.Peering.DecodedReady
import MarketBenchmark.Foundation.Results

/-!
# What a leg heard of its rounds

The assembly of a leg is called with what the entries of its session say: the
records and signatures of the payloads that were handed on, the lines that were
read, and those of the reference feed, under their clocks.  So an event of a leg
is that of a round that its session heard all of.
-/

namespace MarketBenchmark

open Foundation.HashMaps
open Foundation.Panics
open Foundation.Runs

variable {parseReferenceTimeMs : String → Option Nat}

/-- The payload orders rounds, and the locator finds a record of the one around some anchor. -/
def HoldsRecord (payload : Slice) (round : Nat) : Prop :=
  payload.bytes.head? = some 0x00 ∧ ∃ anchor rounds,
    orderingRounds payload anchor roundWindow = .ok rounds ∧ round ∈ rounds.map Prod.fst

/-- The payload is a bundle whose first signature is the one. -/
def HoldsBundle (payload : Slice) (sig : Hash32) : Prop :=
  payload.bytes.head? = some 0x01 ∧ (Peering.bundleFirstSig payload).run = .ok (some sig)

/-! ## Calls and entries -/

namespace Assembly

/-- The entries say why the call is made. -/
def Caused (entries : List LegEntry) : AssemblyCall → Prop
  | .trackOrdering round arrival wallMs =>
      ∃ payload, .payload payload arrival wallMs ∈ entries ∧ HoldsRecord payload round
  | .trackBundle sigR arrival wallMs _ =>
      ∃ payload, .payload payload arrival wallMs ∈ entries ∧ HoldsBundle payload sigR
  | .trackReference line now => .reference line now ∈ entries
  | .drainReady _ _ => True

theorem Caused.mono {first second : List LegEntry} {call : AssemblyCall}
    (caused : Caused first call) (within : first ⊆ second) : Caused second call := by
  cases call with
  | trackOrdering round arrival wallMs =>
      obtain ⟨payload, member, holds⟩ := caused
      exact ⟨payload, within member, holds⟩
  | trackBundle sigR arrival wallMs now =>
      obtain ⟨payload, member, holds⟩ := caused
      exact ⟨payload, within member, holds⟩
  | trackReference line now => exact within caused
  | drainReady order now => trivial

/-- The assembly comes from the origin by calls that the entries cause. -/
def Reached (parseReferenceTimeMs : String → Option Nat) (entries : List LegEntry)
    (origin assembly : Assembly) : Prop :=
  ∃ calls, run (step parseReferenceTimeMs) origin calls = some assembly ∧
    ∀ call ∈ calls, Caused entries call

variable {entries more : List LegEntry} {origin assembly after : Assembly}

theorem Reached.refl : Reached parseReferenceTimeMs entries origin origin :=
  ⟨[], rfl, fun _ member => absurd member List.not_mem_nil⟩

theorem Reached.trans (first : Reached parseReferenceTimeMs entries origin assembly)
    (second : Reached parseReferenceTimeMs more assembly after) :
    Reached parseReferenceTimeMs (entries ++ more) origin after := by
  obtain ⟨earlier, toAssembly, earlierCaused⟩ := first
  obtain ⟨later, toAfter, laterCaused⟩ := second
  refine ⟨earlier ++ later, ?_, fun call member => ?_⟩
  · rw [run_append, toAssembly]
    exact toAfter
  · rcases List.mem_append.mp member with isEarlier | isLater
    · exact (earlierCaused call isEarlier).mono (List.subset_append_left _ _)
    · exact (laterCaused call isLater).mono (List.subset_append_right _ _)

theorem Reached.one {call : AssemblyCall} (caused : Caused entries call) :
    Reached parseReferenceTimeMs entries assembly (assembly.next parseReferenceTimeMs call) :=
  ⟨[call], rfl, fun _ member => List.mem_singleton.mp member ▸ caused⟩

theorem Reached.mono (reached : Reached parseReferenceTimeMs entries origin assembly)
    (within : entries ⊆ more) : Reached parseReferenceTimeMs more origin assembly := by
  obtain ⟨calls, toAssembly, caused⟩ := reached
  exact ⟨calls, toAssembly, fun call member => (caused call member).mono within⟩

theorem Reached.reference (line : ReferenceLine) (now : Nat) :
    Reached parseReferenceTimeMs [.reference line now] assembly
      (trackReference parseReferenceTimeMs assembly line now) :=
  .one (show Caused [.reference line now] (.trackReference line now) from
    List.mem_singleton_self _)

theorem run_trackOrderings (rounds : List (Nat × Nat)) (assembly : Assembly)
    (arrival wallMs : Nat) :
    run (step parseReferenceTimeMs) assembly
        (rounds.map fun round => .trackOrdering round.1 arrival wallMs) =
      some (rounds.foldl
        (fun assembly round => assembly.trackOrdering round.1 arrival wallMs) assembly) := by
  induction rounds generalizing assembly with
  | nil => rfl
  | cons round rest ih => exact ih _

/-- A payload that is tracked causes its calls. -/
theorem reached_of_trackPayload {payload : Slice} {arrival wallMs now : Nat}
    (tracked : Peering.trackPayload payload assembly arrival wallMs now = .ok after) :
    Reached parseReferenceTimeMs [.payload payload arrival wallMs] assembly after := by
  unfold Peering.trackPayload at tracked
  split at tracked
  · next orders =>
      obtain ⟨rounds, located, tracked⟩ := Foundation.Results.bind_eq_ok_iff.mp tracked
      cases tracked
      refine ⟨_, run_trackOrderings rounds assembly arrival wallMs, fun call member => ?_⟩
      obtain ⟨round, isRound, rfl⟩ := List.mem_map.mp member
      exact ⟨payload, List.mem_singleton_self _, orders, _, rounds, located,
        List.mem_map_of_mem isRound⟩
  · split at tracked
    · next isBundle =>
        obtain ⟨found, ran, tracked⟩ := Foundation.Results.bind_eq_ok_iff.mp tracked
        cases found with
        | none =>
            cases tracked
            exact .refl
        | some sig =>
            cases tracked
            have caused : Caused [.payload payload arrival wallMs]
                (.trackBundle sig arrival wallMs now) :=
              ⟨payload, List.mem_singleton_self _, isBundle, ran⟩
            exact .one caused
    · cases tracked
      exact .refl

/-- Frames that are tracked cause the calls of their payloads. -/
theorem reached_of_trackFrames {decompress : Slice → Nat → Option Slice} {arrival wallMs : Nat}
    {now : Nat → Nat} {frames : List (Nat × Peering.Frame)}
    (tracked : Peering.trackFrames decompress arrival wallMs now frames assembly = .ok after) :
    Reached parseReferenceTimeMs
      ((Peering.handed decompress frames).map fun entry => .payload entry.2 arrival wallMs)
      assembly after := by
  induction frames generalizing assembly with
  | nil =>
      cases tracked
      exact .refl
  | cons head rest ih =>
      obtain ⟨stop, frame⟩ := head
      obtain ⟨middle, first, later⟩ := Foundation.Results.bind_eq_ok_iff.mp tracked
      have further := ih later
      unfold Peering.Frame.track at first
      unfold Peering.handed at further ⊢
      rw [List.filterMap_cons]
      cases isPayload : frame.payload decompress with
      | none =>
          rw [isPayload] at first
          cases first
          exact further
      | some payload =>
          rw [isPayload] at first
          exact (reached_of_trackPayload first).trans further

theorem reached_of_consumeFrames {decompress : Slice → Nat → Option Slice} {buf left : Slice}
    {arrival wallMs : Nat} {now : Nat → Nat} {desync : Option String}
    (consumed : Peering.consumeFrames decompress buf assembly arrival wallMs now =
      .ok (left, after, desync)) :
    Reached parseReferenceTimeMs (consumedEntries decompress buf arrival wallMs) assembly
      after := by
  obtain ⟨_, _, same⟩ := Peering.consumeFrames_eq decompress buf
  rw [same] at consumed
  obtain ⟨tracked, first, later⟩ := Foundation.Results.bind_eq_ok_iff.mp consumed
  cases later
  exact reached_of_trackFrames first

end Assembly

/-! ## Tapped legs -/

namespace TapLeg

variable {decompress : Slice → Nat → Option Slice} {leg after : TapLeg}
  {entries : List LegEntry}

theorem reached_of_consume {port wallMs : Nat} {flow : Tap.TapFlow} {bytes : List UInt8}
    {clock : DeliveryClock}
    (consumed : leg.consume decompress port flow bytes wallMs clock = some (after, entries)) :
    Assembly.Reached parseReferenceTimeMs entries leg.assembly after.assembly := by
  unfold consume at consumed
  split at consumed
  · obtain ⟨⟨left, assembly, desync⟩, ran, same⟩ := Option.map_eq_some_iff.mp consumed
    cases same
    exact Assembly.reached_of_consumeFrames (Foundation.Results.toOption_eq_some_iff.mp ran)
  · cases consumed

theorem reached_of_deliver {port : Nat} {clock : DeliveryClock} {delivery : Tap.Delivery}
    (delivered : leg.deliver decompress port clock delivery = some (after, entries)) :
    Assembly.Reached parseReferenceTimeMs entries leg.assembly after.assembly := by
  cases delivery with
  | reset reason =>
      obtain ⟨flow, _, same⟩ := Option.map_eq_some_iff.mp delivered
      cases same
      exact .refl
  | bytes data wallNs =>
      obtain ⟨flow, _, handled⟩ := Option.bind_eq_some_iff.mp delivered
      dsimp only at handled
      split at handled
      · exact reached_of_consume handled
      · split at handled
        · exact reached_of_consume handled
        · cases handled
          exact .refl

variable (parseReferenceTimeMs) in
theorem reached_of_deliverAll {clock : Nat → DeliveryClock} {count : Nat}
    {deliveries : List (Nat × Tap.Delivery)}
    (delivered : leg.deliverAll decompress clock count deliveries = some (after, entries)) :
    Assembly.Reached parseReferenceTimeMs entries leg.assembly after.assembly := by
  induction deliveries generalizing leg count entries with
  | nil =>
      cases delivered
      exact .refl
  | cons head rest ih =>
      obtain ⟨port, delivery⟩ := head
      obtain ⟨⟨middle, first⟩, here, later⟩ := Option.bind_eq_some_iff.mp delivered
      obtain ⟨⟨last, further⟩, there, same⟩ := Option.map_eq_some_iff.mp later
      cases same
      exact (reached_of_deliver here).trans (ih there)

theorem reached_of_segment {seg : Tap.Segment} {now seen : Nat} {clock : Nat → DeliveryClock}
    (handled : leg.segment decompress seg now seen clock = some (after, entries)) :
    Assembly.Reached parseReferenceTimeMs entries leg.assembly after.assembly := by
  have reached := reached_of_deliverAll parseReferenceTimeMs handled
  exact reached

theorem reached_of_maintain {order : IterationOrder} {now : Nat} {clock : Nat → DeliveryClock}
    (handled : leg.maintain decompress order now clock = some (after, entries)) :
    Assembly.Reached parseReferenceTimeMs entries leg.assembly after.assembly := by
  have reached := reached_of_deliverAll parseReferenceTimeMs handled
  exact reached

end TapLeg

/-! ## Decoded legs -/

namespace DecodedAssembly

/-- The entries say why the call is made. -/
def Caused (entries : List LegEntry) : Call → Prop
  | .trackLine line arrival wallMs => .line line arrival wallMs ∈ entries
  | .trackReference line now => .reference line now ∈ entries
  | .drainReady _ _ => True

/-- The assembly comes from the origin by calls that the entries cause. -/
def Reached (parseReferenceTimeMs : String → Option Nat) (entries : List LegEntry)
    (origin assembly : DecodedAssembly) : Prop :=
  ∃ calls, run (step parseReferenceTimeMs) origin calls = some assembly ∧
    ∀ call ∈ calls, Caused entries call

variable {entries more : List LegEntry} {origin assembly : DecodedAssembly}

theorem Reached.refl : Reached parseReferenceTimeMs entries origin origin :=
  ⟨[], rfl, fun _ member => absurd member List.not_mem_nil⟩

theorem Reached.mono (reached : Reached parseReferenceTimeMs entries origin assembly)
    (within : entries ⊆ more) : Reached parseReferenceTimeMs more origin assembly := by
  obtain ⟨calls, toAssembly, caused⟩ := reached
  refine ⟨calls, toAssembly, fun call member => ?_⟩
  have here := caused call member
  cases call with
  | trackLine line arrival wallMs => exact within here
  | trackReference line now => exact within here
  | drainReady order now => trivial

/-- One more call that the entries cause. -/
theorem Reached.next (reached : Reached parseReferenceTimeMs entries origin assembly)
    {call : Call} (caused : Caused entries call) :
    Reached parseReferenceTimeMs entries origin (assembly.next parseReferenceTimeMs call) := by
  obtain ⟨calls, toAssembly, earlier⟩ := reached
  refine ⟨calls ++ [call], run_concat_of_step toAssembly rfl, fun other member => ?_⟩
  rcases List.mem_append.mp member with before | here
  · exact earlier other before
  · exact List.mem_singleton.mp here ▸ caused

end DecodedAssembly

/-! ## Sessions -/

namespace Leg

/-- What the leg tracked since its session was opened is caused by the entries. -/
def Grounded (parseReferenceTimeMs : String → Option Nat) (task : Provider × String)
    (openedMs : Nat) (entries : List LegEntry) : Leg → Prop
  | .dial _ assembly =>
      Assembly.Reached parseReferenceTimeMs entries (.new task.1 task.2 openedMs) assembly
  | .tap leg =>
      Assembly.Reached parseReferenceTimeMs entries (.new task.1 task.2 openedMs) leg.assembly
  | .decoded assembly =>
      DecodedAssembly.Reached parseReferenceTimeMs entries (.new task.2) assembly

variable {libraries : LegLibraries} {task : Provider × String} {openedMs : Nat}
  {entries fresh : List LegEntry} {leg after : Leg} {input : LegInput}

theorem Grounded.handle
    (grounded : leg.Grounded libraries.parseReferenceTimeMs task openedMs entries)
    (handled : leg.handle libraries input = some (.goesOn after fresh)) :
    after.Grounded libraries.parseReferenceTimeMs task openedMs (entries ++ fresh) := by
  cases leg with
  | dial buf assembly =>
      cases input with
      | read chunk arrival wallMs now =>
          obtain ⟨buf, _, handled⟩ := Option.bind_eq_some_iff.mp handled
          obtain ⟨⟨left, assembly, desync⟩, consumed, handled⟩ := Option.map_eq_some_iff.mp handled
          dsimp only at handled
          split at handled
          · cases handled
          · cases handled
            exact Assembly.Reached.trans grounded (Assembly.reached_of_consumeFrames
              (Foundation.Results.toOption_eq_some_iff.mp consumed))
      | reference line now =>
          cases handled
          exact Assembly.Reached.trans grounded (.reference line now)
      | maintenance order now clock =>
          cases handled
          exact Assembly.Reached.mono grounded (List.subset_append_left _ _)
      | _ => cases handled
  | tap leg =>
      cases input with
      | segment seg now seen clock =>
          obtain ⟨⟨next, entries⟩, segment, handled⟩ := Option.map_eq_some_iff.mp handled
          cases handled
          exact Assembly.Reached.trans grounded (TapLeg.reached_of_segment segment)
      | reference line now =>
          cases handled
          exact Assembly.Reached.trans grounded (.reference line now)
      | health =>
          cases handled
          exact Assembly.Reached.mono grounded (List.subset_append_left _ _)
      | maintenance order now clock =>
          dsimp only [Leg.handle] at handled
          split at handled
          · cases handled
          · obtain ⟨⟨next, entries⟩, maintained, handled⟩ := Option.map_eq_some_iff.mp handled
            cases handled
            exact Assembly.Reached.trans grounded (TapLeg.reached_of_maintain maintained)
      | _ => cases handled
  | decoded assembly =>
      have earlier := DecodedAssembly.Reached.mono grounded (List.subset_append_left entries fresh)
      cases input with
      | line bytes arrival wallMs =>
          dsimp only [Leg.handle] at handled
          split at handled
          · cases handled
            exact earlier
          · next line _ =>
              cases handled
              have caused : DecodedAssembly.Caused (entries ++ [.line line arrival wallMs])
                  (.trackLine line arrival wallMs) :=
                List.mem_append_right entries (List.mem_singleton_self _)
              exact earlier.next caused
      | reference line now =>
          cases handled
          have caused : DecodedAssembly.Caused (entries ++ [.reference line now])
              (.trackReference line now) :=
            List.mem_append_right entries (List.mem_singleton_self _)
          exact earlier.next caused
      | maintenance order now clock =>
          cases handled
          exact earlier
      | _ => cases handled

theorem Grounded.drainReady
    (grounded : leg.Grounded parseReferenceTimeMs task openedMs entries)
    (order : IterationOrder) (now : Nat) :
    (leg.drainReady order now).1.Grounded parseReferenceTimeMs task openedMs entries := by
  have drains : Assembly.Caused [] (.drainReady order now) := trivial
  cases leg with
  | dial buf assembly =>
      exact List.append_nil entries ▸ Assembly.Reached.trans grounded (.one drains)
  | tap leg =>
      exact List.append_nil entries ▸ Assembly.Reached.trans grounded (.one drains)
  | decoded assembly =>
      have drains : DecodedAssembly.Caused entries (.drainReady order now) := trivial
      exact DecodedAssembly.Reached.next grounded drains

end Leg

/-! ## Rounds -/

/-- A dialed or tapped session heard all of the event's round: a line that names it and is scored,
an ordering record of it and a bundle for each signature of the line, the last of them with the
stamps of the event. -/
structure HeardFrames (parseReferenceTimeMs : String → Option Nat) (openedMs : Nat)
    (entries : List LegEntry) (event : MarketEvent) (round : Nat) (line : ReferenceLine)
    (reference : ReferenceRound) : Prop where
  named : ∃ now, .reference line now ∈ entries
  own : line.r = round
  reads : Assembly.referenceRound parseReferenceTimeMs line = some reference
  timed : event.key.eventMs = reference.timeMs
  scored : openedMs + asMillis subscriptionWarmup ≤ reference.timeMs
  ordered : ∃ payload arrival wallMs, .payload payload arrival wallMs ∈ entries ∧
    HoldsRecord payload round ∧ arrival ≤ event.received
  bundled : ∀ sig ∈ reference.bundleSigs, ∃ payload arrival wallMs,
    .payload payload arrival wallMs ∈ entries ∧ HoldsBundle payload sig ∧ arrival ≤ event.received
  attained : ∃ payload, .payload payload event.received event.receivedWallMs ∈ entries ∧
    (HoldsRecord payload round ∨ ∃ sig ∈ reference.bundleSigs, HoldsBundle payload sig)

/-- A decoded session heard all of the event's round: a line that names it, and a complete block
with the bundles of the line and the stamps of the event. -/
structure HeardBlock (parseReferenceTimeMs : String → Option Nat) (entries : List LegEntry)
    (event : MarketEvent) (round : Nat) (line : ReferenceLine) (block : DecodedLine) : Prop where
  named : ∃ now, .reference line now ∈ entries
  own : line.r = round
  timed : parseReferenceTimeMs line.t = some event.key.eventMs
  read : .line block event.received event.receivedWallMs ∈ entries
  sameRound : block.round = round
  isBlock : block.kind = "block" ∨ block.kind = "block_patch"
  complete : block.complete = true
  sameBundles : (block.signedActionBundles.map hexValue).Perm
    ((line.b.map Prod.fst).map hexValue)

/-- A session that was opened at the time heard all of the event's round. -/
inductive HeardRound (parseReferenceTimeMs : String → Option Nat) (openedMs : Nat)
    (entries : List LegEntry) (event : MarketEvent) (round : Nat) : Prop where
  | frames (line : ReferenceLine) (reference : ReferenceRound)
      (heard : HeardFrames parseReferenceTimeMs openedMs entries event round line reference)
  | block (line : ReferenceLine) (block : DecodedLine)
      (heard : HeardBlock parseReferenceTimeMs entries event round line block)

variable {openedMs : Nat} {entries : List LegEntry} {event : MarketEvent}

/-- What an assembly returns was heard. -/
theorem Assembly.Reached.heard {provider : Provider} {coin : String} {assembly : Assembly}
    (reached : Reached parseReferenceTimeMs entries (.new provider coin openedMs) assembly)
    {call : AssemblyCall} (returned : event ∈ assembly.emitted call) :
    ∃ round, event.key.content = .peering round ∧
      HeardRound parseReferenceTimeMs openedMs entries event round := by
  obtain ⟨calls, executed, caused⟩ := reached
  obtain ⟨round, reference, ordering, arrivals, ready⟩ :=
    readyBlock_of_emitted (fun _ => rfl) (fun _ => rfl) executed returned
  obtain ⟨line, now, tracked, own, reads, scored⟩ := ready.accepted
  have holdsRecord : ∃ payload, .payload payload ordering.1 ordering.2 ∈ entries ∧
      HoldsRecord payload round := by
    obtain ⟨call, front, part, back, _, _, rfl, _, _, _, _, _, wrote⟩ := ready.ordered
    obtain ⟨rfl, _⟩ := orderingWrites_eq_some.mp wrote
    exact caused (.trackOrdering round ordering.1 ordering.2) (by simp)
  have holdsBundle : ∀ sig ∈ reference.bundleSigs, ∃ payload,
      .payload payload (arrivals sig).1 (arrivals sig).2 ∈ entries ∧ HoldsBundle payload sig := by
    intro sig member
    obtain ⟨call, front, part, back, _, _, rfl, _, _, _, _, _, wrote⟩ := ready.bundled sig member
    obtain ⟨seen, rfl⟩ := bundleWrites_eq_some.mp wrote
    exact caused (.trackBundle sig (arrivals sig).1 (arrivals sig).2 seen) (by simp)
  refine ⟨round, by rw [ready.key], .frames line reference ⟨⟨now, caused _ tracked⟩, own, reads,
    by rw [ready.key], scored, ?_, ?_, ?_⟩⟩
  · obtain ⟨payload, member, holds⟩ := holdsRecord
    exact ⟨payload, _, _, member, holds, ready.after_ordering⟩
  · intro sig isSig
    obtain ⟨payload, member, holds⟩ := holdsBundle sig isSig
    exact ⟨payload, _, _, member, holds, ready.after_bundles sig isSig⟩
  · rcases ready.attained with isOrdering | ⟨sig, isSig, isBundle⟩
    · obtain ⟨payload, member, holds⟩ := holdsRecord
      rw [← isOrdering] at member
      exact ⟨payload, member, Or.inl holds⟩
    · obtain ⟨payload, member, holds⟩ := holdsBundle sig isSig
      rw [← isBundle] at member
      exact ⟨payload, member, Or.inr ⟨sig, isSig, holds⟩⟩

theorem DecodedAssembly.Reached.heard {coin : String} {assembly : DecodedAssembly}
    (reached : Reached parseReferenceTimeMs entries (.new coin) assembly)
    {call : Call} (returned : event ∈ assembly.emitted call) :
    ∃ round, event.key.content = .peering round ∧
      HeardRound parseReferenceTimeMs openedMs entries event round := by
  obtain ⟨calls, executed, caused⟩ := reached
  obtain ⟨round, timeMs, block, line, chain⟩ :=
    chainBlock_of_emitted (fun _ => rfl) executed returned
  obtain ⟨hashes, front, part, back, _, before, rfl, _, _, _, _, _, wrote⟩ := chain.first
  obtain ⟨_, same, brings⟩ := lineWrites_eq_some.mp wrote
  cases same
  obtain ⟨now, tracked, own, time⟩ := chain.accepted
  have read : LegEntry.line block event.received event.receivedWallMs ∈ entries :=
    caused (.trackLine block event.received event.receivedWallMs) (by simp)
  refine ⟨round, by rw [chain.key], .block line block ⟨⟨now, caused _ tracked⟩, own, ?_, read,
    brings.own, chain.isBlock, chain.complete, chain.sameBundles⟩⟩
  rw [chain.key]
  exact time

/-- What a leg returns was heard in its session. -/
theorem Leg.Grounded.heard {leg : Leg} {task : Provider × String}
    (grounded : leg.Grounded parseReferenceTimeMs task openedMs entries)
    {order : IterationOrder} {now : Nat} (returned : event ∈ (leg.drainReady order now).2.1) :
    ∃ round, event.key.content = .peering round ∧
      HeardRound parseReferenceTimeMs openedMs entries event round := by
  cases leg with
  | dial buf assembly =>
      have emitted : event ∈ assembly.emitted (.drainReady order now) := returned
      exact Assembly.Reached.heard grounded emitted
  | tap leg =>
      have emitted : event ∈ leg.assembly.emitted (.drainReady order now) := returned
      exact Assembly.Reached.heard grounded emitted
  | decoded assembly =>
      have emitted : event ∈ assembly.emitted (.drainReady order now) := returned
      exact DecodedAssembly.Reached.heard grounded emitted

end MarketBenchmark
