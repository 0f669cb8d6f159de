import MarketBenchmark.Tap.Contiguity

/-!
# What was received is delivered

After a SYN the segments of a stream come in any order, repeated and cut at any
boundaries, and cover its first bytes.  A segment that starts where a pending
one starts is dropped, and the pending counter is charged for it nevertheless.
The reassembler delivers all of the covered bytes exactly when the segments
that are not dropped cover them and the counter never exceeds its bound.
-/

namespace MarketBenchmark.Tap

open Foundation Foundation.Streams Foundation.Serial Foundation.Transducers

/-- The bytes that the deliveries hand on. -/
def delivered (out : List Delivery) : List UInt8 := out.flatMap Delivery.data

instance (delivery : Delivery) : Decidable delivery.IsBytes :=
  match delivery with
  | .bytes data wallNs => .isTrue ⟨data, wallNs, rfl⟩
  | .reset _ => .isFalse fun ⟨_, _, impossible⟩ => nomatch impossible

/-- A segment with the offset of its first byte, and the instants of its `push`. -/
structure Arrival where
  offset : Nat
  seg : Segment
  now : Nat
  seen : Nat

namespace Arrival

def push (r : Reassembler) (arrival : Arrival) : Reassembler × List Delivery :=
  r.push arrival.seg arrival.now arrival.seen

/-- The arrival brings the byte at an offset. -/
def Brings (arrival : Arrival) (byte : Nat) : Prop :=
  arrival.offset ≤ byte ∧ byte < arrival.offset + arrival.seg.payload.length

instance (arrival : Arrival) (byte : Nat) : Decidable (arrival.Brings byte) :=
  inferInstanceAs (Decidable (_ ∧ _))

/-- `push` drops the bytes of a segment that starts where a pending one starts. -/
def Dropped (r : Reassembler) (arrival : Arrival) : Prop := r.pending.HasKey arrival.seg.seq

instance (r : Reassembler) (arrival : Arrival) : Decidable (Dropped r arrival) :=
  inferInstanceAs (Decidable (r.pending.HasKey _))

/-- Behind a hole, the counter has room for the segment. -/
def Fits (r : Reassembler) (arrival : Arrival) : Prop :=
  0 < seqDiff arrival.seg.seq (r.next.getD arrival.seg.seq) →
    r.pendingBytes + arrival.seg.payload.length ≤ maxPendingBytes

instance (r : Reassembler) (arrival : Arrival) : Decidable (Fits r arrival) :=
  inferInstanceAs (Decidable (_ → _))

/-- No hole is older than `reorderWait` once the segment is taken. -/
def Timely (r : Reassembler) (arrival : Arrival) : Prop :=
  ∀ since ∈ (r.take arrival.seg.seq arrival.seg.payload arrival.seg.wallNs arrival.seen).1.oldest,
    arrival.now - since < reorderWait

instance (r : Reassembler) (arrival : Arrival) : Decidable (Timely r arrival) :=
  inferInstanceAs (Decidable (∀ since ∈ (_ : Option Nat), _))

/-- While nothing was reset, the segment starts within `2 ^ 31` of the next expected byte. -/
def InWindow (out : List Delivery) (arrival : Arrival) : Prop :=
  (∀ delivery ∈ out, delivery.IsBytes) →
    (delivered out).length ≤ arrival.offset + halfSpace ∧
      arrival.offset < (delivered out).length + halfSpace

instance (out : List Delivery) (arrival : Arrival) : Decidable (InWindow out arrival) :=
  inferInstanceAs (Decidable (_ → _ ∧ _))

/-- The arrival is a data segment of the connection. -/
structure IsData (c : Connection) (arrival : Arrival) : Prop where
  carries : c.Carries arrival.offset arrival.seg
  notSyn : ¬arrival.seg.IsSyn
  notRst : ¬arrival.seg.IsRst
  nonempty : arrival.seg.payload ≠ []

end Arrival

/-- The arrivals together bring the first bytes of the stream. -/
def Covers (count : Nat) (arrivals : List Arrival) : Prop :=
  ∀ byte < count, ∃ arrival ∈ arrivals, arrival.Brings byte

instance (count : Nat) (arrivals : List Arrival) : Decidable (Covers count arrivals) :=
  inferInstanceAs (Decidable (∀ byte < count, _))

namespace Connection

/-- The first segment of a connection. -/
def syn (c : Connection) : Segment where
  dstPort := 0
  seq := c.isn
  flags := tcpSyn
  payload := []
  wallNs := 0

/-- The reassembler after the SYN. -/
def started (c : Connection) : Reassembler := (Reassembler.default.push c.syn 0 0).1

variable {c : Connection} {r : Reassembler} {base : Nat}

theorem started_eq : c.started = { Reassembler.default with next := some (c.seqAt 0) } := by
  have isSyn : c.syn.IsSyn := show tcpSyn &&& tcpSyn ≠ 0 by decide
  unfold started Reassembler.push
  rw [if_pos isSyn]
  dsimp only
  rw [if_pos (show c.syn.payload = [] from rfl), seqAt_zero]
  rfl

/-! ## One arrival -/

/-- How far the reassembler has come with the arrivals that it did not drop. -/
structure Progress (c : Connection) (past : List Arrival) (out : List Delivery) (r : Reassembler)
    (reached : Nat) : Prop where
  at_ : c.At r reached
  bytes : ∀ delivery ∈ out, delivery.IsBytes
  occurs : OccursAt c.sent 0 (delivered out)
  length : (delivered out).length = reached
  kept : ∀ arrival ∈ past,
    arrival.offset + arrival.seg.payload.length ≤ reached ∨
      ∃ held, (arrival.seg.seq, held) ∈ r.pending ∧
        c.Placed reached (arrival.seg.seq, held) arrival.offset ∧
        held.payload = arrival.seg.payload
  source : ∀ entry ∈ r.pending, ∃ arrival ∈ past,
    c.Placed reached entry arrival.offset ∧ entry.2.payload = arrival.seg.payload
  covered : Covers reached past

theorem At.not_dropped (at_ : c.At r base) {offset : Nat} (started : offset ≤ base)
    (near : base ≤ offset + halfSpace) : ¬r.pending.HasKey (c.seqAt offset) := by
  intro present
  obtain ⟨held, member⟩ := OrderedMap.hasKey_iff.mp present
  obtain ⟨later, placed, _⟩ := at_.ahead _ member
  have close : later < offset + 2 ^ 32 := by
    have before := placed.2.2
    unfold halfSpace at before near
    omega
  have same := numberAt_inj (Nat.le_refl offset) (Nat.lt_add_of_pos_right (by decide))
    (Nat.le_trans started placed.2.1.le) close placed.1
  have after := placed.2.1
  omega

/-- Nothing expires: `push` is `take`. -/
theorem At.push_eq_take (at_ : c.At r base) {arrival : Arrival} (data : arrival.IsData c)
    (timely : arrival.Timely r) :
    arrival.push r =
      r.take arrival.seg.seq arrival.seg.payload arrival.seg.wallNs arrival.seen := by
  have joined : { r with next := some (r.next.getD arrival.seg.seq) } = r := by
    rw [at_.next]
    exact congrArg (fun next => { r with next := next }) at_.next.symm
  unfold Arrival.push Reassembler.push
  rw [if_neg data.notSyn, if_neg data.notRst, if_neg data.nonempty, joined]
  dsimp only
  unfold Arrival.Timely at timely
  generalize r.take arrival.seg.seq arrival.seg.payload arrival.seg.wallNs arrival.seen = taken
    at timely
  have quiet : taken.1.expire arrival.now = (taken.1, []) := by
    unfold Reassembler.expire
    cases oldest : taken.1.oldest with
    | none => rfl
    | some since => exact if_pos (timely since oldest)
  rw [quiet, List.append_nil]

variable {past : List Arrival} {out : List Delivery}

/-- A delivery at the reached position carries the progress on. -/
theorem Progress.deliver (progress : c.Progress past out r base) {arrival : Arrival}
    {payload : List UInt8} {result : Reassembler × List Delivery} {reached : Nat}
    (moved : c.Delivers base r payload result reached) (start : arrival.offset ≤ base)
    (ends : base + payload.length = arrival.offset + arrival.seg.payload.length) :
    c.Progress (past ++ [arrival]) (out ++ result.2) result.1 reached := by
  obtain ⟨data, wallNs, emitted, occurs, length⟩ := moved.bytes
  have includes := moved.includes
  have forward : base ≤ reached := by omega
  have grown : delivered (out ++ result.2) = delivered out ++ data := by
    unfold delivered
    rw [emitted, List.flatMap_append, List.flatMap_singleton]
    rfl
  refine ⟨moved.at_, ?_, ?_, ?_, ?_, ?_, ?_⟩
  · intro delivery member
    rcases List.mem_append.mp member with before | here
    · exact progress.bytes delivery before
    · rw [emitted] at here
      exact ⟨data, wallNs, List.mem_singleton.mp here⟩
  · rw [grown]
    refine occursAt_append.mpr ⟨progress.occurs, ?_⟩
    rw [progress.length, Nat.zero_add]
    exact occurs
  · rw [grown, List.length_append, progress.length, length]
  · intro other member
    rcases List.mem_append.mp member with before | here
    · rcases progress.kept other before with behind | ⟨held, pending, placed, same⟩
      · exact Or.inl (Nat.le_trans behind forward)
      · rcases moved.pulled _ pending with left | ended
        · exact Or.inr ⟨held, left, placed.advance forward (moved.later _ left _ placed), same⟩
        · have behind := ended _ placed
          rw [same] at behind
          exact Or.inl behind
    · rw [List.mem_singleton.mp here, ← ends]
      exact Or.inl includes
  · intro entry member
    obtain ⟨source, before, placed, same⟩ := progress.source entry (moved.kept entry member)
    exact ⟨source, List.mem_append_left _ before,
      placed.advance forward (moved.later entry member _ placed), same⟩
  · intro byte below
    rcases Nat.lt_or_ge byte base with early | late
    · obtain ⟨other, before, brings⟩ := progress.covered byte early
      exact ⟨other, List.mem_append_left _ before, brings⟩
    · rcases Nat.lt_or_ge byte (base + payload.length) with inside | beyond
      · exact ⟨arrival, List.mem_append_right _ List.mem_cons_self,
          Nat.le_trans start late, by omega⟩
      · obtain ⟨entry, pending, offset, placed, from_, before⟩ := moved.covered byte beyond below
        obtain ⟨source, sourcePast, sourcePlaced, same⟩ := progress.source entry pending
        have offsets := placed.unique sourcePlaced rfl
        rw [offsets] at from_ before
        rw [same] at before
        exact ⟨source, List.mem_append_left _ sourcePast, from_, before⟩

/-- A segment that changes nothing brought nothing new. -/
theorem Progress.ignore (progress : c.Progress past out r base) {arrival : Arrival}
    (behind : arrival.offset + arrival.seg.payload.length ≤ base) :
    c.Progress (past ++ [arrival]) out r base where
  at_ := progress.at_
  bytes := progress.bytes
  occurs := progress.occurs
  length := progress.length
  kept := by
    intro other member
    rcases List.mem_append.mp member with before | here
    · exact progress.kept other before
    · rw [List.mem_singleton.mp here]
      exact Or.inl behind
  source := fun entry member =>
    (progress.source entry member).imp fun _ found => ⟨List.mem_append_left _ found.1, found.2⟩
  covered := fun byte below =>
    (progress.covered byte below).imp fun _ found => ⟨List.mem_append_left _ found.1, found.2⟩

/-- A segment ahead of a hole is held, unless one that starts there is. -/
theorem Progress.hold (progress : c.Progress past out r base) {arrival : Arrival}
    (data : arrival.IsData c) (after : base < arrival.offset)
    (near : arrival.offset < base + halfSpace)
    (fits : r.pendingBytes + arrival.seg.payload.length ≤ maxPendingBytes) :
    c.Progress (past ++ if arrival.Dropped r then [] else [arrival]) out
      { r with
        pendingBytes := r.pendingBytes + arrival.seg.payload.length
        pending := r.pending.orInsert (c.seqAt arrival.offset)
          { payload := arrival.seg.payload, wallNs := arrival.seg.wallNs,
            firstSeen := arrival.seen } } base := by
  have number := data.carries.numbered data.notSyn data.nonempty
  have held := progress.at_.hold arrival.seg.wallNs arrival.seen after near fits
    data.carries.occurs
  by_cases dropped : arrival.Dropped r
  · rw [if_pos dropped, List.append_nil]
    unfold Arrival.Dropped at dropped
    rw [number] at dropped
    rw [OrderedMap.orInsert_of_hasKey dropped] at held ⊢
    exact ⟨held, progress.bytes, progress.occurs, progress.length, progress.kept, progress.source,
      progress.covered⟩
  · rw [if_neg dropped]
    unfold Arrival.Dropped at dropped
    rw [number] at dropped
    have inserted : ∀ entry, entry ∈ r.pending.orInsert (c.seqAt arrival.offset)
        { payload := arrival.seg.payload, wallNs := arrival.seg.wallNs,
          firstSeen := arrival.seen } ↔ entry = (c.seqAt arrival.offset, _) ∨ entry ∈ r.pending :=
      fun _ => OrderedMap.mem_orInsert_of_fresh dropped
    refine ⟨held, progress.bytes, progress.occurs, progress.length, ?_, ?_, ?_⟩
    · intro other member
      rcases List.mem_append.mp member with before | here
      · refine (progress.kept other before).imp_right ?_
        rintro ⟨old, pending, placed, same⟩
        exact ⟨old, (inserted _).mpr (Or.inr pending), placed, same⟩
      · rw [List.mem_singleton.mp here, number]
        exact Or.inr ⟨_, (inserted _).mpr (Or.inl rfl), ⟨rfl, after, near⟩, rfl⟩
    · intro entry member
      rcases (inserted entry).mp member with rfl | pending
      · exact ⟨arrival, List.mem_append_right _ List.mem_cons_self, ⟨rfl, after, near⟩, rfl⟩
      · obtain ⟨other, before, found⟩ := progress.source entry pending
        exact ⟨other, List.mem_append_left _ before, found⟩
    · intro byte below
      obtain ⟨other, before, brings⟩ := progress.covered byte below
      exact ⟨other, List.mem_append_left _ before, brings⟩

/-- Progress over one arrival that fits. -/
theorem Progress.push (progress : c.Progress past out r base) {arrival : Arrival}
    (data : arrival.IsData c) (inWindow : arrival.InWindow out) (timely : arrival.Timely r)
    (fits : arrival.Fits r) :
    ∃ reached, c.Progress (past ++ if arrival.Dropped r then [] else [arrival])
      (out ++ (arrival.push r).2) (arrival.push r).1 reached := by
  have at_ := progress.at_
  have number := data.carries.numbered data.notSyn data.nonempty
  have captured := data.carries.captured
  have occurs := data.carries.occurs
  have positive := List.length_pos_iff.mpr data.nonempty
  have bounded := at_.bounded
  have limits : captureBytes + maxPendingBytes ≤ halfSpace := by decide
  obtain ⟨notFarBehind, notFarAhead⟩ := inWindow progress.bytes
  rw [progress.length] at notFarBehind notFarAhead
  rw [at_.push_eq_take data timely, number]
  rcases Nat.lt_or_ge base arrival.offset with after | started
  · unfold Arrival.Fits at fits
    rw [at_.next, number] at fits
    have fitting := fits (at_.seqDiff_ahead after notFarAhead).2
    rw [at_.take_hold after notFarAhead fitting, List.append_nil]
    exact ⟨base, progress.hold data after notFarAhead fitting⟩
  · have notDropped : ¬arrival.Dropped r := by
      unfold Arrival.Dropped
      rw [number]
      exact at_.not_dropped started notFarBehind
    rw [if_neg notDropped]
    rcases Nat.lt_or_eq_of_le started with before | same
    · rcases Nat.lt_or_ge base (arrival.offset + arrival.seg.payload.length) with ends | behind
      · rw [at_.take_overlap before notFarBehind ends]
        have length : (arrival.seg.payload.drop (base - arrival.offset)).length =
            arrival.seg.payload.length - (base - arrival.offset) := List.length_drop
        have occursRest : OccursAt c.sent (arrival.offset + (base - arrival.offset))
            (arrival.seg.payload.drop (base - arrival.offset)) := occurs.drop (by omega)
        rw [Nat.add_sub_cancel' started] at occursRest
        obtain ⟨reached, moved⟩ := delivers at_.ahead at_.charged bounded (by omega) occursRest
        exact ⟨reached, progress.deliver moved started (by omega)⟩
      · rw [at_.take_behind notFarBehind before behind, List.append_nil]
        exact ⟨base, progress.ignore behind⟩
    · rw [same, at_.take_next]
      rw [same] at occurs
      obtain ⟨reached, moved⟩ := delivers at_.ahead at_.charged bounded (by omega) occurs
      exact ⟨reached, progress.deliver moved started (by rw [same])⟩

/-- An arrival that does not fit resets the stream. -/
theorem Progress.reset (progress : c.Progress past out r base) {arrival : Arrival}
    (data : arrival.IsData c) (inWindow : arrival.InWindow out) (timely : arrival.Timely r)
    (overflows : ¬arrival.Fits r) : ∃ delivery ∈ (arrival.push r).2, ¬delivery.IsBytes := by
  have at_ := progress.at_
  have number := data.carries.numbered data.notSyn data.nonempty
  obtain ⟨notFarBehind, notFarAhead⟩ := inWindow progress.bytes
  rw [progress.length] at notFarBehind notFarAhead
  have after : base < arrival.offset := by
    refine Nat.lt_of_not_le fun started => overflows ?_
    unfold Arrival.Fits
    rw [at_.next, number]
    intro ahead
    dsimp only [Option.getD_some] at ahead
    have difference : seqDiff (c.seqAt arrival.offset) (c.seqAt base) =
        (arrival.offset : Int) - (base : Int) := seqDiff_seqAt notFarBehind notFarAhead
    omega
  have full : maxPendingBytes < r.pendingBytes + arrival.seg.payload.length := by
    refine Nat.lt_of_not_le fun room => overflows fun _ => room
  rw [at_.push_eq_take data timely, number, at_.take_full after notFarAhead full]
  exact ⟨_, List.mem_cons_self, fun ⟨_, _, impossible⟩ => nomatch impossible⟩

/-! ## All arrivals -/

variable {arrivals : List Arrival}

/-- Progress over arrivals that all fit. -/
theorem Progress.feed (progress : c.Progress past out r base)
    (data : ∀ arrival ∈ arrivals, arrival.IsData c)
    (inWindow : Throughout Arrival.push (fun _ out => Arrival.InWindow out) r out arrivals)
    (timely : Throughout Arrival.push (fun r _ => Arrival.Timely r) r out arrivals)
    (fits : Throughout Arrival.push (fun r _ => Arrival.Fits r) r out arrivals) :
    ∃ reached, c.Progress (past ++ without Arrival.push Arrival.Dropped r arrivals)
      (out ++ (Transducers.feed Arrival.push r arrivals).2)
      (Transducers.feed Arrival.push r arrivals).1 reached := by
  induction arrivals generalizing r base past out with
  | nil =>
      refine ⟨base, ?_⟩
      rw [feed_nil, without, List.append_nil, List.append_nil]
      exact progress
  | cons arrival rest ih =>
      obtain ⟨windowHere, windowLater⟩ := inWindow
      obtain ⟨timelyHere, timelyLater⟩ := timely
      obtain ⟨fitsHere, fitsLater⟩ := fits
      obtain ⟨middle, moved⟩ :=
        progress.push (data arrival List.mem_cons_self) windowHere timelyHere fitsHere
      obtain ⟨reached, done⟩ := ih moved
        (fun other member => data other (List.mem_cons_of_mem arrival member))
        windowLater timelyLater fitsLater
      rw [List.append_assoc, List.append_assoc] at done
      exact ⟨reached, done⟩

/-- If nothing is reset, every arrival fitted. -/
theorem Progress.fits (progress : c.Progress past out r base)
    (data : ∀ arrival ∈ arrivals, arrival.IsData c)
    (inWindow : Throughout Arrival.push (fun _ out => Arrival.InWindow out) r out arrivals)
    (timely : Throughout Arrival.push (fun r _ => Arrival.Timely r) r out arrivals)
    (bytes : ∀ delivery ∈ (Transducers.feed Arrival.push r arrivals).2, delivery.IsBytes) :
    Throughout Arrival.push (fun r _ => Arrival.Fits r) r out arrivals := by
  induction arrivals generalizing r base past out with
  | nil => trivial
  | cons arrival rest ih =>
      obtain ⟨windowHere, windowLater⟩ := inWindow
      obtain ⟨timelyHere, timelyLater⟩ := timely
      rw [feed_cons] at bytes
      have dataHere := data arrival List.mem_cons_self
      have fitsHere : arrival.Fits r := by
        by_contra overflows
        obtain ⟨delivery, member, isReset⟩ :=
          progress.reset dataHere windowHere timelyHere overflows
        exact isReset (bytes delivery (List.mem_append_left _ member))
      obtain ⟨middle, moved⟩ := progress.push dataHere windowHere timelyHere fitsHere
      exact ⟨fitsHere, ih moved
        (fun other member => data other (List.mem_cons_of_mem arrival member))
        windowLater timelyLater
        fun delivery member => bytes delivery (List.mem_append_right _ member)⟩

theorem progress_started : c.Progress [] [] c.started 0 := by
  rw [started_eq]
  exact ⟨at_start 0, nofun, occursAt_nil 0, rfl, nofun,
    fun _ member => absurd member OrderedMap.notMem_empty, nofun⟩

/-- The reached position is where the arrivals that were not dropped end. -/
theorem Progress.reached_ge (progress : c.Progress past out r base) {count : Nat}
    (covers : Covers count past) : count ≤ base := by
  refine Nat.le_of_not_lt fun short => ?_
  obtain ⟨arrival, member, started, before⟩ := covers base short
  rcases progress.kept arrival member with behind | ⟨held, _, placed, _⟩
  · omega
  · have after := placed.2.1
    omega

/--
The reassembler delivers what it received, without a reset, exactly when the
pending counter stays within its bound and the segments that were not dropped
for one that starts at the same pending number cover the stream.
-/
theorem received_delivered_iff {count : Nat} (data : ∀ arrival ∈ arrivals, arrival.IsData c)
    (within : ∀ arrival ∈ arrivals, arrival.offset + arrival.seg.payload.length ≤ count)
    (covers : Covers count arrivals)
    (inWindow : Throughout Arrival.push (fun _ out => Arrival.InWindow out) c.started [] arrivals)
    (timely : Throughout Arrival.push (fun r _ => Arrival.Timely r) c.started [] arrivals) :
    ((∀ delivery ∈ (Transducers.feed Arrival.push c.started arrivals).2, delivery.IsBytes) ∧
        delivered (Transducers.feed Arrival.push c.started arrivals).2 = c.sent.take count) ↔
      Throughout Arrival.push (fun r _ => Arrival.Fits r) c.started [] arrivals ∧
        Covers count (without Arrival.push Arrival.Dropped c.started arrivals) := by
  constructor
  · rintro ⟨bytes, complete⟩
    have fits := progress_started.fits data inWindow timely bytes
    obtain ⟨reached, done⟩ := progress_started.feed data inWindow timely fits
    rw [List.nil_append, List.nil_append] at done
    refine ⟨fits, fun byte below => done.covered byte ?_⟩
    obtain ⟨arrival, member, _, before⟩ := covers byte below
    have arrived := (data arrival member).carries.occurs.length_le (data arrival member).nonempty
    rw [← done.length, complete, List.length_take]
    omega
  · rintro ⟨fits, covered⟩
    obtain ⟨reached, done⟩ := progress_started.feed data inWindow timely fits
    rw [List.nil_append, List.nil_append] at done
    refine ⟨done.bytes, ?_⟩
    have least := done.reached_ge covered
    have most : reached ≤ count := by
      refine Nat.le_of_not_lt fun further => ?_
      obtain ⟨arrival, member, _, before⟩ := done.covered count further
      have ends := within arrival (without_subset member)
      omega
    rw [done.occurs.eq_take, done.length, Nat.le_antisymm most least]

end Connection

/-! ## Sample arrivals -/

def sampleArrival (offset : Nat) (payload : List UInt8) : Arrival where
  offset := offset
  seg := sampleSegment offset payload
  now := 0
  seen := 0

theorem sampleArrival_isData {offset : Nat} {payload : List UInt8}
    (captured : payload.length ≤ captureBytes)
    (occurs : OccursAt sampleConnection.sent offset payload) (nonempty : payload ≠ []) :
    (sampleArrival offset payload).IsData sampleConnection :=
  ⟨sampleSegment_carries captured occurs, sampleSegment_notSyn,
    show ¬(0x18 : BitVec 8) &&& tcpRst ≠ 0 by decide, nonempty⟩

/-- A shorter repeat of a pending segment, and an overlap that fills the hole. -/
def repeatedArrivals : List Arrival :=
  [sampleArrival 2 [12, 13], sampleArrival 2 [12], sampleArrival 0 [10, 11, 12],
    sampleArrival 4 [14, 15, 16, 17]]

theorem received_delivered_repeated :
    delivered (feed Arrival.push sampleConnection.started repeatedArrivals).2 =
      sampleConnection.sent.take 8 := by
  have data : ∀ arrival ∈ repeatedArrivals, arrival.IsData sampleConnection := by
    unfold repeatedArrivals
    simp only [List.forall_mem_cons]
    exact ⟨sampleArrival_isData (by decide) (by decide) (by decide),
      sampleArrival_isData (by decide) (by decide) (by decide),
      sampleArrival_isData (by decide) (by decide) (by decide),
      sampleArrival_isData (by decide) (by decide) (by decide), nofun⟩
  exact ((Connection.received_delivered_iff data (by decide) (by decide) (by decide +kernel)
    (by decide +kernel)).mpr ⟨by decide +kernel, by decide +kernel⟩).2

/-- A retransmission that starts where a shorter pending segment starts. -/
def longerArrivals : List Arrival :=
  [sampleArrival 2 [12], sampleArrival 2 [12, 13, 14, 15, 16, 17], sampleArrival 0 [10, 11]]

/-- The bytes of the longer retransmission are lost, although everything arrived in time. -/
theorem received_lost :
    (∀ arrival ∈ longerArrivals, arrival.IsData sampleConnection) ∧
      (∀ arrival ∈ longerArrivals, arrival.offset + arrival.seg.payload.length ≤ 8) ∧
      Covers 8 longerArrivals ∧
      Throughout Arrival.push (fun _ out => Arrival.InWindow out) sampleConnection.started []
        longerArrivals ∧
      Throughout Arrival.push (fun r _ => Arrival.Timely r) sampleConnection.started []
        longerArrivals ∧
      Throughout Arrival.push
        (fun r _ arrival => heldBytes (arrival.push r).1.pending < maxPendingBytes)
        sampleConnection.started [] longerArrivals ∧
      delivered (feed Arrival.push sampleConnection.started longerArrivals).2 = [10, 11, 12] ∧
      sampleConnection.sent.take 8 ≠ [10, 11, 12] := by
  refine ⟨?_, by decide, by decide, by decide +kernel, by decide +kernel, by decide +kernel,
    by decide +kernel, by decide⟩
  unfold longerArrivals
  simp only [List.forall_mem_cons]
  exact ⟨sampleArrival_isData (by decide) (by decide) (by decide),
    sampleArrival_isData (by decide) (by decide) (by decide),
    sampleArrival_isData (by decide) (by decide) (by decide), nofun⟩

end MarketBenchmark.Tap
