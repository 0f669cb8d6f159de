import MarketBenchmark.Feeds.Fills

/-!
# The mempool join

Two legs report the same bundle: the line of the sentry on the box and the
message of the endpoint.  The join keeps one entry per hash until both legs are
there or a deadline passes, and remembers finished hashes for a while.

Seen from one hash the join is a slot that is idle, waits for the second leg, or
is finished.  The slots of different hashes do not influence each other.
-/

namespace MarketBenchmark.Feeds

open Foundation.HashMaps

/-- A single leg older than this is emitted alone. -/
def joinDeadline : Nat := fromSecs 5

/-- Finished hashes are remembered this long. -/
def doneRetain : Nat := fromSecs 120

inductive JoinInput where
  | bundle (txHash : String) (firstRecvMs received receivedWallMs : Nat)
  | grpc (txHash : String) (received receivedWallMs : Nat)
  deriving DecidableEq

namespace JoinInput

def txHash : JoinInput → String
  | bundle txHash .. => txHash
  | grpc txHash .. => txHash

def received : JoinInput → Nat
  | bundle _ _ received _ => received
  | grpc _ received _ => received

def receivedWallMs : JoinInput → Nat
  | bundle _ _ _ receivedWallMs => receivedWallMs
  | grpc _ _ receivedWallMs => receivedWallMs

/-- The sentry's receipt time, in the line of the sentry only. -/
def firstRecvMs : JoinInput → Option Nat
  | bundle _ firstRecvMs _ _ => some firstRecvMs
  | grpc .. => none

/-- The leg that an input belongs to. -/
def provider : JoinInput → Provider
  | bundle .. => .quickNodeVpc
  | grpc .. => .quickNodeGrpc

def stamps (input : JoinInput) : Nat × Nat × Option Nat :=
  (input.received, input.receivedWallMs, input.firstRecvMs)

/-- The hash under which an input is joined. -/
def hash (input : JoinInput) : String := toAsciiLowercase input.txHash

end JoinInput

structure Entry where
  firstRecvMs : Option Nat := none
  vpc : Option (Nat × Nat) := none
  grpc : Option (Nat × Nat) := none
  firstSeen : Option Nat := none
  deriving DecidableEq

namespace Entry

def complete (entry : Entry) : Bool := entry.vpc.isSome && entry.grpc.isSome

/-- The box's first sight of the bundle. -/
def referenceMs (entry : Entry) : Nat :=
  ([entry.firstRecvMs, entry.vpc.map Prod.snd, entry.grpc.map Prod.snd].filterMap id).min?.getD 0

def events (entry : Entry) (coin txHash : String) : List MarketEvent :=
  let event (provider : Provider) (leg : Nat × Nat) : MarketEvent :=
    { provider := provider
      key := { coin := coin, eventMs := entry.referenceMs, content := .mempool txHash }
      received := leg.1
      receivedWallMs := leg.2 }
  (entry.grpc.map (event .quickNodeGrpc)).toList ++ (entry.vpc.map (event .quickNodeVpc)).toList

/-- Record one leg; the first copy wins. -/
def record (entry : Entry) (input : JoinInput) (now : Nat) : Entry :=
  let seen := { entry with firstSeen := some (entry.firstSeen.getD now) }
  match input with
  | .bundle _ firstRecvMs received wall =>
      if entry.vpc.isNone then
        { seen with vpc := some (received, wall), firstRecvMs := some firstRecvMs }
      else seen
  | .grpc _ received wall =>
      if entry.grpc.isNone then { seen with grpc := some (received, wall) } else seen

/-- The entry was first seen at least the deadline ago. -/
def overdue (entry : Entry) (now : Nat) : Bool :=
  entry.firstSeen.any fun seen => joinDeadline ≤ now - seen

/-- The stamps of the leg of a provider, with the sentry's receipt time if it is the box's leg. -/
def copy (entry : Entry) : Provider → Option (Nat × Nat × Option Nat)
  | .quickNodeVpc => entry.vpc.map fun leg => (leg.1, leg.2, entry.firstRecvMs)
  | .quickNodeGrpc => entry.grpc.map fun leg => (leg.1, leg.2, none)
  | _ => none

theorem copy_empty (provider : Provider) : ({} : Entry).copy provider = none := by
  cases provider <;> rfl

/-- Recording keeps the legs that are there. -/
theorem copy_record (entry : Entry) (input : JoinInput) (now : Nat) (provider : Provider) :
    (entry.record input now).copy provider =
      if provider = input.provider then some ((entry.copy provider).getD input.stamps)
      else entry.copy provider := by
  cases input with
  | bundle txHash firstRecvMs received wall =>
      cases legs : entry.vpc with
      | none =>
          cases provider <;> simp [record, legs, copy, JoinInput.provider, JoinInput.stamps,
            JoinInput.received, JoinInput.receivedWallMs, JoinInput.firstRecvMs]
      | some leg => cases provider <;> simp [record, legs, copy, JoinInput.provider]
  | grpc txHash received wall =>
      cases legs : entry.grpc with
      | none =>
          cases provider <;> simp [record, legs, copy, JoinInput.provider, JoinInput.stamps,
            JoinInput.received, JoinInput.receivedWallMs, JoinInput.firstRecvMs]
      | some leg => cases provider <;> simp [record, legs, copy, JoinInput.provider]

theorem firstSeen_record (entry : Entry) (input : JoinInput) (now : Nat) :
    (entry.record input now).firstSeen = some (entry.firstSeen.getD now) := by
  cases input with
  | bundle txHash firstRecvMs received wall => cases legs : entry.vpc <;> simp [record, legs]
  | grpc txHash received wall => cases legs : entry.grpc <;> simp [record, legs]

/-- The entry has a leg, and a receipt time only with the box's leg. -/
structure Sound (entry : Entry) : Prop where
  hasLeg : entry.vpc.isSome ∨ entry.grpc.isSome
  paired : entry.vpc = none → entry.firstRecvMs = none

theorem Sound.record {entry : Entry} (paired : entry.vpc = none → entry.firstRecvMs = none)
    (input : JoinInput) (now : Nat) : (entry.record input now).Sound := by
  cases input with
  | bundle txHash firstRecvMs received wall =>
      cases legs : entry.vpc with
      | none => constructor <;> simp [Entry.record, legs]
      | some leg => constructor <;> simp [Entry.record, legs]
  | grpc txHash received wall =>
      cases legs : entry.grpc with
      | none => exact ⟨by simp [Entry.record, legs], by simpa [Entry.record, legs] using paired⟩
      | some leg => exact ⟨by simp [Entry.record, legs], by simpa [Entry.record, legs] using paired⟩

end Entry

/-- `opened` is the field `open` of the source. -/
structure MempoolJoin where
  coin : String
  opened : HashMap String Entry
  done : HashMap String Nat

namespace MempoolJoin

def new (coin : String) : MempoolJoin where
  coin := coin
  opened := ∅
  done := ∅

/-- Record one leg; returns the events of both legs the moment the second arrives. -/
def offer (join : MempoolJoin) (input : JoinInput) (now : Nat) :
    MempoolJoin × List MarketEvent :=
  if (join.done.lookup input.hash).isSome then (join, [])
  else
    let entry := ((join.opened.lookup input.hash).getD {}).record input now
    if entry.complete then
      ({ join with
          opened := join.opened.erase input.hash
          done := join.done.insert input.hash now },
        entry.events join.coin input.hash)
    else ({ join with opened := join.opened.insert input.hash entry }, [])

/-- The body of the loop of `expire`; the events and the gaps so far go with the join. -/
def expireOne (now : Nat) (before : MempoolJoin × List MarketEvent × Nat) (hash : String) :
    MempoolJoin × List MarketEvent × Nat :=
  match before.1.opened.lookup hash with
  | none => before
  | some entry =>
      ({ before.1 with
          opened := before.1.opened.erase hash
          done := before.1.done.insert hash now },
        before.2.1 ++ entry.events before.1.coin hash,
        before.2.2 + if entry.vpc.isNone then 1 else 0)

/-- The overdue hashes, in iteration order. -/
def expired (order : IterationOrder) (join : MempoolJoin) (now : Nat) : List String :=
  ((order.arrange join.opened.entries).filter fun entry => entry.2.overdue now).map Sigma.fst

/-- Emit the overdue entries alone and forget the hashes that finished long ago; returns the
events and the number of bundles that the sentry never saw. -/
def expire (order : IterationOrder) (join : MempoolJoin) (now : Nat) :
    MempoolJoin × List MarketEvent × Nat :=
  let closed := (join.expired order now).foldl (expireOne now) (join, [], 0)
  ({ closed.1 with
      done := closed.1.done.retain fun _ finished => decide (now - finished < doneRetain) },
    closed.2)

/-! ## Calls -/

/-- A call of the join task. -/
inductive JoinCall where
  | offer (input : JoinInput) (now : Nat)
  | expire (order : IterationOrder) (now : Nat)

def JoinCall.now : JoinCall → Nat
  | offer _ now => now
  | expire _ now => now

def next (join : MempoolJoin) : JoinCall → MempoolJoin
  | .offer input now => (join.offer input now).1
  | .expire order now => (join.expire order now).1

/-- The events that a call returns. -/
def returned (join : MempoolJoin) : JoinCall → List MarketEvent
  | .offer input now => (join.offer input now).2
  | .expire order now => (join.expire order now).2.1

/-- The gaps that a call returns. -/
def vpcGaps (join : MempoolJoin) : JoinCall → Nat
  | .offer _ _ => 0
  | .expire order now => (join.expire order now).2.2

/-! ## The loop of an expiry -/

/-- The entries that the loop closes. -/
def closing (join : MempoolJoin) (hashes : List String) : List (String × Entry) :=
  hashes.filterMap fun hash => (join.opened.lookup hash).map fun entry => (hash, entry)

theorem closing_erase {join : MempoolJoin} {hash : String} {hashes : List String}
    (absent : hash ∉ hashes) (finished : HashMap String Nat) :
    closing { join with opened := join.opened.erase hash, done := finished } hashes =
      join.closing hashes := by
  refine List.filterMap_congr fun other member => ?_
  have different : other ≠ hash := fun same => absent (same ▸ member)
  simp only [AList.lookup_erase_ne different]

/-- What the loop does to the events and the gaps. -/
theorem foldl_expireOne_emits (now : Nat) {hashes : List String} (distinct : hashes.Nodup)
    (join : MempoolJoin) (events : List MarketEvent) (gaps : Nat) :
    (hashes.foldl (expireOne now) (join, events, gaps)).2 =
      (events ++ (join.closing hashes).flatMap fun entry => entry.2.events join.coin entry.1,
        gaps + (join.closing hashes).countP fun entry => entry.2.vpc.isNone) := by
  induction hashes generalizing join events gaps with
  | nil => simp [closing]
  | cons hash rest ih =>
      obtain ⟨absent, distinctRest⟩ := List.nodup_cons.mp distinct
      cases found : join.opened.lookup hash with
      | none =>
          simp only [List.foldl_cons, expireOne, found, ih distinctRest, closing,
            List.filterMap_cons, Option.map_none]
      | some entry =>
          simp only [List.foldl_cons, expireOne, found, ih distinctRest,
            closing_erase absent]
          simp only [closing, List.filterMap_cons, found, Option.map_some, List.flatMap_cons,
            List.append_assoc, List.countP_cons, Prod.mk.injEq, true_and]
          omega

/-- What the loop does to the entries. -/
theorem foldl_expireOne_keeps (now : Nat) {hashes : List String} (distinct : hashes.Nodup)
    (join : MempoolJoin) (events : List MarketEvent) (gaps : Nat) (hash : String) :
    let closed := (hashes.foldl (expireOne now) (join, events, gaps)).1
    closed.coin = join.coin ∧
      (closed.opened.lookup hash = if hash ∈ hashes then none else join.opened.lookup hash) ∧
      closed.done.lookup hash =
        if hash ∈ hashes ∧ (join.opened.lookup hash).isSome then some now
        else join.done.lookup hash := by
  induction hashes generalizing join events gaps with
  | nil => simp
  | cons first rest ih =>
      obtain ⟨absent, distinctRest⟩ := List.nodup_cons.mp distinct
      cases found : join.opened.lookup first with
      | none =>
          simp only [List.foldl_cons, expireOne, found, List.mem_cons]
          obtain ⟨sameCoin, opened, done⟩ := ih distinctRest join events gaps
          refine ⟨sameCoin, ?_, ?_⟩
          · rw [opened]
            by_cases own : hash = first
            · subst own
              simp [found]
            · simp [own]
          · rw [done]
            by_cases own : hash = first
            · subst own
              simp [found]
            · simp [own]
      | some entry =>
          simp only [List.foldl_cons, expireOne, found, List.mem_cons]
          obtain ⟨sameCoin, opened, done⟩ := ih distinctRest _ _ _
          refine ⟨sameCoin, ?_, ?_⟩
          · rw [opened]
            by_cases own : hash = first
            · subst own
              simp
            · simp [own, AList.lookup_erase_ne own]
          · rw [done]
            by_cases own : hash = first
            · subst own
              simp [found, absent]
            · simp [own, AList.lookup_erase_ne own, AList.lookup_insert_ne own]

theorem mem_expired {order : IterationOrder} {join : MempoolJoin} {now : Nat} {hash : String} :
    hash ∈ join.expired order now ↔
      ∃ entry, join.opened.lookup hash = some entry ∧ entry.overdue now = true := by
  unfold expired
  rw [List.mem_map]
  constructor
  · rintro ⟨entry, kept, rfl⟩
    obtain ⟨member, late⟩ := List.mem_filter.mp kept
    exact ⟨entry.2, HashMap.mem_entries_iff.mp (order.mem_arrange.mp member), late⟩
  · rintro ⟨entry, found, late⟩
    refine ⟨⟨hash, entry⟩, List.mem_filter.mpr ⟨?_, late⟩, rfl⟩
    exact order.mem_arrange.mpr (HashMap.mem_entries_iff.mpr found)

theorem expired_nodup (order : IterationOrder) (join : MempoolJoin) (now : Nat) :
    (join.expired order now).Nodup := by
  have distinct : ((order.arrange join.opened.entries).map Sigma.fst).Nodup :=
    ((order.perm join.opened.entries).map Sigma.fst).nodup_iff.mpr join.opened.nodupKeys
  exact distinct.sublist (List.filter_sublist.map Sigma.fst)

/-! ## Emissions -/

/-- The hashes that a call emits, each with its entry. -/
def emissions (join : MempoolJoin) : JoinCall → List (String × Entry)
  | .offer input now =>
      let entry := ((join.opened.lookup input.hash).getD {}).record input now
      if (join.done.lookup input.hash).isNone ∧ entry.complete then [(input.hash, entry)] else []
  | .expire order now => join.closing (join.expired order now)

theorem returned_eq (join : MempoolJoin) (call : JoinCall) :
    join.returned call =
      (join.emissions call).flatMap fun entry => entry.2.events join.coin entry.1 := by
  cases call with
  | offer input now =>
      simp only [returned, offer, emissions]
      cases join.done.lookup input.hash with
      | some finished => rfl
      | none =>
          by_cases full : (((join.opened.lookup input.hash).getD {}).record input now).complete
          · simp [full]
          · simp [full]
  | expire order now =>
      simp only [returned, expire, emissions]
      rw [foldl_expireOne_emits now (join.expired_nodup order now)]
      rfl

theorem vpcGaps_eq (join : MempoolJoin) (call : JoinCall) :
    join.vpcGaps call = (join.emissions call).countP fun entry => entry.2.vpc.isNone := by
  cases call with
  | offer input now =>
      simp only [vpcGaps, emissions]
      split
      next emitted =>
        obtain ⟨_, full⟩ := emitted
        have hasVpc := (Bool.and_eq_true_iff.mp full).1
        rw [List.countP_singleton, ← Option.not_isSome, hasVpc]
        rfl
      · rfl
  | expire order now =>
      simp only [vpcGaps, expire, emissions]
      rw [foldl_expireOne_emits now (join.expired_nodup order now)]
      exact Nat.zero_add _

theorem mem_closing {join : MempoolJoin} {hashes : List String} {hash : String} {entry : Entry} :
    (hash, entry) ∈ join.closing hashes ↔
      hash ∈ hashes ∧ join.opened.lookup hash = some entry := by
  simp only [closing, List.mem_filterMap, Option.map_eq_some_iff, Prod.mk.injEq]
  constructor
  · rintro ⟨other, member, found, present, rfl, rfl⟩
    exact ⟨member, present⟩
  · rintro ⟨member, present⟩
    exact ⟨hash, member, entry, present, rfl, rfl⟩

theorem closing_keys (join : MempoolJoin) (hashes : List String) :
    (join.closing hashes).map Prod.fst =
      hashes.filter fun hash => (join.opened.lookup hash).isSome := by
  induction hashes with
  | nil => rfl
  | cons hash rest ih =>
      cases found : join.opened.lookup hash with
      | none => simpa [closing, found] using ih
      | some entry => simpa [closing, found] using ih

/-- A call emits a hash at most once. -/
theorem emissions_keys_nodup (join : MempoolJoin) (call : JoinCall) :
    ((join.emissions call).map Prod.fst).Nodup := by
  cases call with
  | offer input now =>
      simp only [emissions]
      split
      · exact List.nodup_singleton _
      · exact List.nodup_nil
  | expire order now =>
      simp only [emissions, closing_keys]
      exact (join.expired_nodup order now).filter _

end MempoolJoin

/-! ## The slot of one hash -/

/-- What the join knows of one hash. -/
inductive Slot where
  | idle
  | waiting (entry : Entry)
  | finished (since : Nat)

namespace Slot

open MempoolJoin

/-- The entry that an arriving leg is recorded in. -/
def entry : Slot → Entry
  | waiting entry => entry
  | _ => {}

def isFinished : Slot → Bool
  | finished _ => true
  | _ => false

/-- The slot of the hash after a call. -/
def next (slot : Slot) (hash : String) : JoinCall → Slot
  | .offer input now =>
      if input.hash ≠ hash ∨ slot.isFinished then slot
      else if (slot.entry.record input now).complete then finished now
      else waiting (slot.entry.record input now)
  | .expire _ now =>
      match slot with
      | idle => idle
      | waiting entry => if entry.overdue now then finished now else waiting entry
      | finished since => if now - since < doneRetain then finished since else idle

/-- The entry of the hash that a call emits. -/
def emits (slot : Slot) (hash : String) : JoinCall → Option Entry
  | .offer input now =>
      if input.hash ≠ hash ∨ slot.isFinished then none
      else if (slot.entry.record input now).complete then some (slot.entry.record input now)
      else none
  | .expire _ now =>
      match slot with
      | waiting entry => if entry.overdue now then some entry else none
      | _ => none

end Slot

namespace MempoolJoin

def slot (join : MempoolJoin) (hash : String) : Slot :=
  match join.done.lookup hash with
  | some since => .finished since
  | none =>
      match join.opened.lookup hash with
      | some entry => .waiting entry
      | none => .idle

/-- No finished hash has an entry, and the entries are sound. -/
structure Sound (join : MempoolJoin) : Prop where
  apart : ∀ hash entry, join.opened.lookup hash = some entry → join.done.lookup hash = none
  entries : ∀ hash entry, join.opened.lookup hash = some entry → entry.Sound

theorem Sound.new (coin : String) : (new coin).Sound := by
  constructor
  · intro hash entry found
    cases found
  · intro hash entry found
    cases found

section Slots

variable {join : MempoolJoin} {hash : String}

theorem slot_of_done {since : Nat} (finished : join.done.lookup hash = some since) :
    join.slot hash = .finished since := by
  rw [slot, finished]

theorem slot_of_opened {entry : Entry} (notDone : join.done.lookup hash = none)
    (found : join.opened.lookup hash = some entry) : join.slot hash = .waiting entry := by
  rw [slot, notDone, found]

theorem slot_of_absent (notDone : join.done.lookup hash = none)
    (absent : join.opened.lookup hash = none) : join.slot hash = .idle := by
  rw [slot, notDone, absent]

theorem slot_isFinished : (join.slot hash).isFinished = (join.done.lookup hash).isSome := by
  unfold slot
  cases join.done.lookup hash with
  | some since => rfl
  | none => cases join.opened.lookup hash <;> rfl

theorem slot_entry (notDone : join.done.lookup hash = none) :
    (join.slot hash).entry = (join.opened.lookup hash).getD {} := by
  cases found : join.opened.lookup hash with
  | none =>
      rw [slot_of_absent notDone found]
      rfl
  | some entry =>
      rw [slot_of_opened notDone found]
      rfl

theorem slot_offer (input : JoinInput) (now : Nat) :
    ((join.offer input now).1.slot hash) = (join.slot hash).next hash (.offer input now) := by
  cases isDone : join.done.lookup input.hash with
  | some since =>
      have kept : (join.offer input now).1 = join := by simp [offer, isDone]
      rw [kept]
      by_cases own : input.hash = hash
      · subst own
        simp [Slot.next, slot_isFinished, isDone]
      · simp [Slot.next, own]
  | none =>
      by_cases own : input.hash = hash
      · subst own
        simp only [Slot.next, slot_isFinished, slot_entry isDone, isDone, offer]
        by_cases full : (((join.opened.lookup input.hash).getD {}).record input now).complete
        · simp [full, slot]
        · simp [full, slot, isDone]
      · have other : hash ≠ input.hash := fun same => own same.symm
        rw [Slot.next, if_pos (Or.inl own)]
        simp only [offer, isDone]
        by_cases full : (((join.opened.lookup input.hash).getD {}).record input now).complete
        · simp [full, slot, AList.lookup_insert_ne other, AList.lookup_erase_ne other]
        · simp [full, slot, AList.lookup_insert_ne other]

theorem lookup_opened_expire (order : IterationOrder) (now : Nat) :
    (join.expire order now).1.opened.lookup hash =
      if hash ∈ join.expired order now then none else join.opened.lookup hash :=
  (foldl_expireOne_keeps now (join.expired_nodup order now) join [] 0 hash).2.1

theorem lookup_done_expire (order : IterationOrder) (now : Nat) :
    (join.expire order now).1.done.lookup hash =
      if hash ∈ join.expired order now then some now
      else (join.done.lookup hash).filter fun finished => decide (now - finished < doneRetain) := by
  have closed := (foldl_expireOne_keeps now (join.expired_nodup order now) join [] 0 hash).2.2
  simp only [expire, HashMap.lookup_retain]
  rw [closed]
  by_cases late : hash ∈ join.expired order now
  · obtain ⟨entry, found, _⟩ := mem_expired.mp late
    simp [late, found, doneRetain, fromSecs]
  · simp [late]

theorem slot_expire (sound : join.Sound) (order : IterationOrder) (now : Nat) :
    ((join.expire order now).1.slot hash) = (join.slot hash).next hash (.expire order now) := by
  cases found : join.opened.lookup hash with
  | some entry =>
      have notDone := sound.apart hash entry found
      rw [slot_of_opened notDone found]
      by_cases late : entry.overdue now
      · have member : hash ∈ join.expired order now := mem_expired.mpr ⟨entry, found, late⟩
        simp [Slot.next, late, slot, lookup_done_expire, member]
      · have kept : hash ∉ join.expired order now := by
          rintro member
          obtain ⟨other, same, isLate⟩ := mem_expired.mp member
          cases found.symm.trans same
          exact late isLate
        simp [Slot.next, late, slot, lookup_done_expire, lookup_opened_expire, kept, found, notDone]
  | none =>
      have kept : hash ∉ join.expired order now := by
        rintro member
        obtain ⟨entry, present, _⟩ := mem_expired.mp member
        cases found.symm.trans present
      cases isDone : join.done.lookup hash with
      | none =>
          rw [slot_of_absent isDone found]
          simp [Slot.next, slot, lookup_done_expire, lookup_opened_expire, kept, found, isDone]
      | some since =>
          rw [slot_of_done isDone]
          by_cases recent : now - since < doneRetain
          · simp [Slot.next, slot, lookup_done_expire, kept, isDone, recent, Option.filter_some]
          · simp [Slot.next, slot, lookup_done_expire, lookup_opened_expire, kept, found, isDone,
              recent, Option.filter_some]

/-- The join is one slot for every hash. -/
theorem slot_next (sound : join.Sound) (call : JoinCall) :
    (join.next call).slot hash = (join.slot hash).next hash call := by
  cases call with
  | offer input now => exact slot_offer input now
  | expire order now => exact slot_expire sound order now

/-- A call emits what the slots emit. -/
theorem mem_emissions (sound : join.Sound) {call : JoinCall} {entry : Entry} :
    (hash, entry) ∈ join.emissions call ↔ (join.slot hash).emits hash call = some entry := by
  cases call with
  | offer input now =>
      simp only [emissions, Slot.emits, slot_isFinished]
      by_cases own : input.hash = hash
      · subst own
        cases isDone : join.done.lookup input.hash with
        | some since => simp
        | none =>
            rw [slot_entry isDone]
            by_cases full : (((join.opened.lookup input.hash).getD {}).record input now).complete
            · simp [full, eq_comm]
            · simp [full]
      · have other : hash ≠ input.hash := fun same => own same.symm
        simp only [own, ne_eq, not_false_eq_true, true_or, if_true, reduceCtorEq, iff_false]
        split
        · simp [other]
        · simp
  | expire order now =>
      rw [emissions, mem_closing, mem_expired]
      constructor
      · rintro ⟨⟨other, found, late⟩, present⟩
        cases found.symm.trans present
        rw [slot_of_opened (sound.apart hash entry present) present]
        simp [Slot.emits, late]
      · intro emitted
        cases isDone : join.done.lookup hash with
        | some since => simp [slot_of_done isDone, Slot.emits] at emitted
        | none =>
            cases found : join.opened.lookup hash with
            | none => simp [slot_of_absent isDone found, Slot.emits] at emitted
            | some present =>
                rw [slot_of_opened isDone found] at emitted
                simp only [Slot.emits] at emitted
                split at emitted
                next late =>
                  cases emitted
                  exact ⟨⟨entry, rfl, late⟩, rfl⟩
                · cases emitted

theorem Sound.recorded (sound : join.Sound) (input : JoinInput) (now : Nat) :
    (((join.opened.lookup hash).getD {}).record input now).Sound := by
  refine Entry.Sound.record ?_ input now
  cases found : join.opened.lookup hash with
  | none => exact fun _ => rfl
  | some entry => exact (sound.entries hash entry found).paired

theorem Sound.offer (sound : join.Sound) (input : JoinInput) (now : Nat) :
    (join.offer input now).1.Sound := by
  unfold MempoolJoin.offer
  cases isDone : join.done.lookup input.hash with
  | some since => exact sound
  | none =>
      simp only [Option.isSome_none, Bool.false_eq_true, if_false]
      split
      · constructor
        · intro hash entry found
          obtain ⟨other, present⟩ := HashMap.lookup_erase_eq_some.mp found
          rw [AList.lookup_insert_ne other]
          exact sound.apart hash entry present
        · intro hash entry found
          exact sound.entries hash entry (HashMap.lookup_erase_eq_some.mp found).2
      · constructor
        · intro hash entry found
          rcases HashMap.lookup_insert_eq_some.mp found with ⟨rfl, _⟩ | ⟨_, present⟩
          · exact isDone
          · exact sound.apart hash entry present
        · intro hash entry found
          rcases HashMap.lookup_insert_eq_some.mp found with ⟨_, rfl⟩ | ⟨_, present⟩
          · exact sound.recorded input now
          · exact sound.entries hash entry present

theorem Sound.expire (sound : join.Sound) (order : IterationOrder) (now : Nat) :
    (join.expire order now).1.Sound := by
  have kept : ∀ hash entry, (join.expire order now).1.opened.lookup hash = some entry →
      hash ∉ join.expired order now ∧ join.opened.lookup hash = some entry := by
    intro hash entry found
    rw [lookup_opened_expire] at found
    split at found
    · cases found
    next early => exact ⟨early, found⟩
  constructor
  · intro hash entry found
    obtain ⟨early, present⟩ := kept hash entry found
    rw [lookup_done_expire, if_neg early, sound.apart hash entry present]
    rfl
  · intro hash entry found
    exact sound.entries hash entry (kept hash entry found).2

theorem Sound.next (sound : join.Sound) (call : JoinCall) : (join.next call).Sound := by
  cases call with
  | offer input now => exact sound.offer input now
  | expire order now => exact sound.expire order now

/-- Every emitted entry is sound. -/
theorem Sound.emits (sound : join.Sound) {call : JoinCall} {entry : Entry}
    (emitted : (hash, entry) ∈ join.emissions call) : entry.Sound := by
  cases call with
  | offer input now =>
      simp only [emissions] at emitted
      split at emitted
      · obtain ⟨rfl, rfl⟩ := Prod.mk.inj (List.mem_singleton.mp emitted)
        exact sound.recorded input now
      · cases emitted
  | expire order now => exact sound.entries hash entry (mem_closing.mp emitted).2

end Slots

end MempoolJoin

end MarketBenchmark.Feeds
