import MarketBenchmark.Tap.Reassembler
import MarketBenchmark.Foundation.Streams

/-!
# What one call does to a reassembler at a known offset

The sender of a connection numbers the bytes of one stream.  While the
reassembler reads, its `next` is the number of an offset of that stream, and
every pending payload is a piece of the stream that starts less than half the
sequence space later.  The lemmas here say what each part of `push` and `tick`
does to such a reassembler, in terms of offsets.
-/

namespace MarketBenchmark.Tap

open Foundation Foundation.Streams Foundation.Serial

/-- Half of the sequence space. -/
def halfSpace : Nat := 2 ^ 31

theorem space_eq : 2 ^ 32 = 2 * halfSpace := rfl

/-- The bytes that the tapped peer sends, and the sequence number of its SYN. -/
structure Connection where
  sent : List UInt8
  isn : BitVec 32

namespace Connection

variable {c : Connection}

/-- The sequence number of the byte at an offset. -/
def seqAt (c : Connection) (offset : Nat) : BitVec 32 := numberAt (c.isn + 1) offset

theorem seqAt_zero : c.seqAt 0 = c.isn + 1 := numberAt_zero

theorem seqAt_add (offset length : Nat) :
    c.seqAt offset + BitVec.ofNat 32 length = c.seqAt (offset + length) :=
  (numberAt_add offset length).symm

theorem seqDiff_seqAt {later earlier : Nat} (behind : earlier ≤ later + halfSpace)
    (ahead : later < earlier + halfSpace) :
    seqDiff (c.seqAt later) (c.seqAt earlier) = (later : Int) - (earlier : Int) :=
  distance_of_close space_eq behind ahead

theorem seqDiff_self (offset : Nat) : seqDiff (c.seqAt offset) (c.seqAt offset) = 0 := by
  rw [seqDiff_seqAt (Nat.le_add_right _ _) (Nat.lt_add_of_pos_right (by decide)), sub_self]

/-- The pending entry starts at the offset, which lies less than half the space after `base`. -/
def Placed (c : Connection) (base : Nat) (entry : BitVec 32 × Held) (offset : Nat) : Prop :=
  entry.1 = c.seqAt offset ∧ base < offset ∧ offset < base + halfSpace

theorem Placed.unique {base first second : Nat} {one other : BitVec 32 × Held}
    (placed : c.Placed base one first) (placedOther : c.Placed base other second)
    (same : one.1 = other.1) : first = second := by
  obtain ⟨number, after, before⟩ := placed
  obtain ⟨numberOther, afterOther, beforeOther⟩ := placedOther
  rw [number, numberOther] at same
  unfold halfSpace at before beforeOther
  exact numberAt_inj after.le (by omega) afterOther.le (by omega) same

theorem Placed.advance {base reached offset : Nat} {entry : BitVec 32 × Held}
    (placed : c.Placed base entry offset) (later : base ≤ reached) (after : reached < offset) :
    c.Placed reached entry offset :=
  ⟨placed.1, after, Nat.lt_of_lt_of_le placed.2.2 (Nat.add_le_add_right later _)⟩

/-- The pending entry is a piece of the stream ahead of `base`. -/
def Ahead (c : Connection) (base : Nat) (entry : BitVec 32 × Held) : Prop :=
  ∃ offset, c.Placed base entry offset ∧ OccursAt c.sent offset entry.2.payload

/-! ## The pull loop -/

/-- The loop has reached `position`; what is pending lies ahead of `base`. -/
structure Pulling (c : Connection) (base : Nat) (pull : Pull) (position : Nat) : Prop where
  next : pull.next = c.seqAt position
  ahead : ∀ entry ∈ pull.pending, c.Ahead base entry
  charged : heldBytes pull.pending ≤ pull.pendingBytes
  after : base ≤ position
  room : position + pull.pendingBytes ≤ base + halfSpace

variable {base position : Nat} {pull : Pull}

theorem Pulling.seqDiff_entry (pulling : c.Pulling base pull position)
    {entry : BitVec 32 × Held} {offset : Nat} (placed : c.Placed base entry offset) :
    seqDiff entry.1 pull.next = (offset : Int) - (position : Int) := by
  obtain ⟨number, after, before⟩ := placed
  have room := pulling.room
  have reached := pulling.after
  rw [number, pulling.next]
  exact seqDiff_seqAt (by omega) (by omega)

/-- A pending entry is due exactly when it starts no later than the reached position. -/
theorem Pulling.due_iff (pulling : c.Pulling base pull position)
    {entry : BitVec 32 × Held} {offset : Nat} (placed : c.Placed base entry offset) :
    seqDiff entry.1 pull.next ≤ 0 ↔ offset ≤ position := by
  rw [pulling.seqDiff_entry placed]
  omega

/-- How one pull state extends another. -/
structure Extends (c : Connection) (base : Nat) (pull : Pull) (position : Nat) (after : Pull)
    (reached : Nat) : Prop where
  grown : ∃ extra, after.data = pull.data ++ extra ∧ OccursAt c.sent position extra ∧
    reached = position + extra.length
  kept : ∀ entry ∈ after.pending, entry ∈ pull.pending
  pulled : ∀ entry ∈ pull.pending, entry ∈ after.pending ∨
    ∀ offset, c.Placed base entry offset → offset + entry.2.payload.length ≤ reached
  covered : ∀ byte, position ≤ byte → byte < reached → ∃ entry ∈ pull.pending, ∃ offset,
    c.Placed base entry offset ∧ offset ≤ byte ∧ byte < offset + entry.2.payload.length
  paid : reached + after.pendingBytes ≤ position + pull.pendingBytes

theorem Extends.refl : c.Extends base pull position pull position where
  grown := ⟨[], (List.append_nil _).symm, occursAt_nil _, rfl⟩
  kept := fun _ member => member
  pulled := fun _ member => Or.inl member
  covered := fun _ from_ before => absurd before (Nat.not_lt.mpr from_)
  paid := Nat.le_refl _

theorem Extends.le {after : Pull} {reached : Nat}
    (extended : c.Extends base pull position after reached) : position ≤ reached := by
  obtain ⟨_, _, _, same⟩ := extended.grown
  omega

theorem Extends.trans {middle after : Pull} {halfway reached : Nat}
    (first : c.Extends base pull position middle halfway)
    (second : c.Extends base middle halfway after reached) :
    c.Extends base pull position after reached where
  grown := by
    obtain ⟨extra, data, occurs, length⟩ := first.grown
    obtain ⟨more, dataMore, occursMore, lengthMore⟩ := second.grown
    rw [length] at occursMore
    refine ⟨extra ++ more, ?_, occursAt_append.mpr ⟨occurs, occursMore⟩, ?_⟩
    · rw [dataMore, data, List.append_assoc]
    · rw [lengthMore, length, List.length_append, Nat.add_assoc]
  kept := fun entry member => first.kept entry (second.kept entry member)
  pulled := by
    intro entry member
    rcases first.pulled entry member with left | ended
    · exact second.pulled entry left
    · exact Or.inr fun offset placed => Nat.le_trans (ended offset placed) second.le
  covered := by
    intro byte from_ before
    rcases Nat.lt_or_ge byte halfway with early | late
    · exact first.covered byte from_ early
    · obtain ⟨entry, member, covering⟩ := second.covered byte late before
      exact ⟨entry, first.kept entry member, covering⟩
  paid := Nat.le_trans second.paid first.paid

/-- One turn of the loop. -/
theorem Pulling.absorb (pulling : c.Pulling base pull position) {seq : BitVec 32} {held : Held}
    (member : (seq, held) ∈ pull.pending) (isDue : seqDiff seq pull.next ≤ 0) :
    ∃ reached, c.Pulling base (pull.absorb seq held) reached ∧
      c.Extends base pull position (pull.absorb seq held) reached := by
  obtain ⟨offset, placed, occurs⟩ := pulling.ahead _ member
  have started := (pulling.due_iff placed).mp isDue
  have weights : heldBytes pull.pending =
      held.payload.length + heldBytes (pull.pending.erase seq) := OrderedMap.total_erase member
  have overlap : asUsize (seqDiff pull.next seq) = position - offset := by
    obtain ⟨number, afterBase, beforeEnd⟩ := placed
    have room := pulling.room
    have reached := pulling.after
    have difference : seqDiff pull.next seq = ((position - offset : Nat) : Int) := by
      rw [pulling.next, show seq = c.seqAt offset from number,
        seqDiff_seqAt (by omega) (by omega)]
      omega
    rw [difference]
    refine asUsize_natCast ?_
    unfold halfSpace at room
    omega
  have aheadLeft : ∀ entry ∈ pull.pending.erase seq, c.Ahead base entry :=
    fun entry left => pulling.ahead entry (OrderedMap.mem_erase.mp left).1
  have chargedLeft : heldBytes (pull.pending.erase seq) ≤
      pull.pendingBytes - held.payload.length := by
    have charged := pulling.charged
    omega
  have leftOr : ∀ entry ∈ pull.pending, entry ∈ pull.pending.erase seq ∨ entry = (seq, held) := by
    intro entry within
    by_cases same : entry.1 = seq
    · subst same
      exact Or.inr (Prod.ext rfl (OrderedMap.value_unique within member))
    · exact Or.inl (OrderedMap.mem_erase.mpr ⟨within, same⟩)
  have room := pulling.room
  have charged := pulling.charged
  unfold Pull.absorb
  rw [overlap]
  dsimp only
  by_cases within : held.payload.length ≤ position - offset
  · rw [if_pos within]
    refine ⟨position, ⟨pulling.next, aheadLeft, chargedLeft, pulling.after, ?_⟩,
      ⟨[], (List.append_nil _).symm, occursAt_nil _, rfl⟩,
      fun entry left => (OrderedMap.mem_erase.mp left).1, ?_,
      fun byte from_ before => absurd before (Nat.not_lt.mpr from_), ?_⟩
    · dsimp only
      omega
    · intro entry inside
      refine (leftOr entry inside).imp_right ?_
      rintro rfl other placedOther
      rw [placedOther.unique placed rfl]
      dsimp only
      omega
    · dsimp only
      omega
  · rw [if_neg within]
    have length : (held.payload.drop (position - offset)).length =
        held.payload.length - (position - offset) := List.length_drop
    have reaches : position + (held.payload.drop (position - offset)).length =
        offset + held.payload.length := by omega
    have occursRest : OccursAt c.sent position (held.payload.drop (position - offset)) := by
      have dropped : OccursAt c.sent (offset + (position - offset))
          (held.payload.drop (position - offset)) := occurs.drop (by dsimp only; omega)
      rwa [Nat.add_sub_cancel' started] at dropped
    refine ⟨position + (held.payload.drop (position - offset)).length,
      ⟨?_, aheadLeft, chargedLeft, ?_, ?_⟩, ⟨_, rfl, occursRest, rfl⟩,
      fun entry left => (OrderedMap.mem_erase.mp left).1, ?_, ?_, ?_⟩
    · dsimp only
      rw [pulling.next, seqAt_add]
    · exact Nat.le_trans pulling.after (Nat.le_add_right _ _)
    · dsimp only
      omega
    · intro entry inside
      refine (leftOr entry inside).imp_right ?_
      rintro rfl other placedOther
      rw [placedOther.unique placed rfl]
      exact reaches.ge
    · intro byte from_ before
      rw [reaches] at before
      exact ⟨(seq, held), member, offset, placed, Nat.le_trans started from_, before⟩
    · dsimp only
      omega

/-- The loop ends with nothing due. -/
theorem Pulling.loop (pulling : c.Pulling base pull position) {fuel : Nat}
    (enough : pull.pending.entries.length ≤ fuel) :
    ∃ reached, c.Pulling base (Pull.loop fuel pull) reached ∧
      c.Extends base pull position (Pull.loop fuel pull) reached ∧
      ∀ entry ∈ (Pull.loop fuel pull).pending, ∀ offset, c.Placed base entry offset →
        reached < offset := by
  induction fuel generalizing pull position with
  | zero =>
      have none : pull.pending.entries = [] :=
        List.length_eq_zero_iff.mp (Nat.le_zero.mp enough)
      refine ⟨position, pulling, .refl, fun entry member => absurd member ?_⟩
      rw [← OrderedMap.mem_entries, Pull.loop, none]
      exact List.not_mem_nil
  | succ fuel ih =>
      unfold Pull.loop
      cases found : pull.due with
      | none =>
          refine ⟨position, pulling, .refl, fun entry member offset placed => ?_⟩
          have notDue := List.find?_eq_none.mp found entry member
          rw [decide_eq_true_iff, pulling.due_iff placed] at notDue
          exact Nat.lt_of_not_le notDue
      | some entry =>
          obtain ⟨seq, held⟩ := entry
          unfold Pull.due at found
          have member : (seq, held) ∈ pull.pending := List.mem_of_find?_eq_some found
          have matched := List.find?_some found
          have isDue : seqDiff seq pull.next ≤ 0 := of_decide_eq_true matched
          obtain ⟨halfway, pullingOn, extended⟩ := pulling.absorb member isDue
          have shrunk : (pull.absorb seq held).pending.entries.length <
              pull.pending.entries.length := by
            have erased : (pull.absorb seq held).pending = pull.pending.erase seq := by
              unfold Pull.absorb
              dsimp only
              split <;> rfl
            rw [erased]
            exact OrderedMap.length_erase_lt member
          obtain ⟨reached, done, further, later⟩ := ih pullingOn (by omega)
          exact ⟨reached, done, extended.trans further, later⟩

/-! ## Delivering -/

/-- The reassembler has handed on the stream up to `base`. -/
structure At (c : Connection) (r : Reassembler) (base : Nat) : Prop where
  next : r.next = some (c.seqAt base)
  ahead : ∀ entry ∈ r.pending, c.Ahead base entry
  charged : heldBytes r.pending ≤ r.pendingBytes
  bounded : r.pendingBytes ≤ maxPendingBytes

/-- What delivering a payload at `base` does. -/
structure Delivers (c : Connection) (base : Nat) (r : Reassembler) (payload : List UInt8)
    (result : Reassembler × List Delivery) (reached : Nat) : Prop where
  at_ : c.At result.1 reached
  bytes : ∃ data wallNs, result.2 = [.bytes data wallNs] ∧ OccursAt c.sent base data ∧
    reached = base + data.length
  includes : base + payload.length ≤ reached
  kept : ∀ entry ∈ result.1.pending, entry ∈ r.pending
  pulled : ∀ entry ∈ r.pending, entry ∈ result.1.pending ∨
    ∀ offset, c.Placed base entry offset → offset + entry.2.payload.length ≤ reached
  covered : ∀ byte, base + payload.length ≤ byte → byte < reached →
    ∃ entry ∈ r.pending, ∃ offset, c.Placed base entry offset ∧ offset ≤ byte ∧
      byte < offset + entry.2.payload.length
  paid : reached + result.1.pendingBytes ≤ base + payload.length + r.pendingBytes
  later : ∀ entry ∈ result.1.pending, ∀ offset, c.Placed base entry offset → reached < offset

variable {r : Reassembler} {payload : List UInt8} {wallNs seen : Nat}

theorem delivers (ahead : ∀ entry ∈ r.pending, c.Ahead base entry)
    (charged : heldBytes r.pending ≤ r.pendingBytes) (bounded : r.pendingBytes ≤ maxPendingBytes)
    (room : payload.length + r.pendingBytes ≤ halfSpace) (occurs : OccursAt c.sent base payload) :
    ∃ reached, c.Delivers base r payload (r.deliver (c.seqAt base) payload wallNs) reached := by
  have pulling : c.Pulling base
      { next := c.seqAt base + BitVec.ofNat 32 payload.length
        data := payload
        lastWall := wallNs
        pending := r.pending
        pendingBytes := r.pendingBytes } (base + payload.length) := by
    refine ⟨seqAt_add base payload.length, ahead, charged, Nat.le_add_right _ _, ?_⟩
    dsimp only
    omega
  obtain ⟨reached, done, extended, later⟩ := pulling.loop (Nat.le_refl _)
  obtain ⟨extra, data, occursExtra, length⟩ := extended.grown
  have paid := extended.paid
  have further := extended.le
  refine ⟨reached, ⟨?_, ?_, done.charged, ?_⟩, ⟨_, _, rfl, ?_, ?_⟩, further, extended.kept,
    extended.pulled, extended.covered, paid, later⟩
  · exact congrArg some done.next
  · intro entry member
    obtain ⟨offset, placed, occursEntry⟩ := done.ahead entry member
    exact ⟨offset, placed.advance done.after (later entry member offset placed), occursEntry⟩
  · dsimp only [Reassembler.deliver] at paid ⊢
    omega
  · rw [data]
    exact occursAt_append.mpr ⟨occurs, occursExtra⟩
  · rw [data, length, List.length_append, Nat.add_assoc]

/-! ## Taking a segment -/

/-- A segment that starts where the stream continues. -/
theorem At.take_next (at_ : c.At r base) :
    r.take (c.seqAt base) payload wallNs seen = r.deliver (c.seqAt base) payload wallNs := by
  unfold Reassembler.take
  rw [at_.next]
  dsimp only
  rw [seqDiff_self, if_neg (lt_irrefl 0), if_neg (lt_irrefl 0)]

/-- A segment that starts before the stream continues and ends after it. -/
theorem At.take_overlap (at_ : c.At r base) {offset : Nat} (started : offset < base)
    (near : base ≤ offset + halfSpace) (ends : base < offset + payload.length) :
    r.take (c.seqAt offset) payload wallNs seen =
      r.deliver (c.seqAt base) (payload.drop (base - offset)) wallNs := by
  have difference : seqDiff (c.seqAt offset) (c.seqAt base) = (offset : Int) - (base : Int) :=
    seqDiff_seqAt near (Nat.lt_of_lt_of_le started (Nat.le_add_right _ _))
  have skip : ((offset : Int) - (base : Int)).natAbs = base - offset := by omega
  unfold Reassembler.take
  rw [at_.next]
  dsimp only
  rw [difference, if_pos (by omega), skip, if_neg (by omega)]

/-- A segment that brings nothing new. -/
theorem At.take_behind (at_ : c.At r base) {offset : Nat} (near : base ≤ offset + halfSpace)
    (before : offset < base) (ends : offset + payload.length ≤ base) :
    r.take (c.seqAt offset) payload wallNs seen = (r, []) := by
  have difference : seqDiff (c.seqAt offset) (c.seqAt base) = (offset : Int) - (base : Int) :=
    seqDiff_seqAt near (Nat.lt_of_lt_of_le before (Nat.le_add_right _ _))
  unfold Reassembler.take
  rw [at_.next]
  dsimp only
  rw [difference, if_pos (by omega), if_pos (by omega)]

/-- Half the sequence space ahead counts as behind. -/
theorem At.take_opposite (at_ : c.At r base) {offset : Nat} (opposite : offset = base + halfSpace)
    (short : payload.length ≤ halfSpace) :
    r.take (c.seqAt offset) payload wallNs seen = (r, []) := by
  have difference : seqDiff (c.seqAt offset) (c.seqAt base) = -(halfSpace : Int) :=
    distance_of_opposite space_eq opposite
  have positive : 0 < halfSpace := by decide
  unfold Reassembler.take
  rw [at_.next]
  dsimp only
  rw [difference, if_pos (by omega), if_pos (by omega)]

theorem At.seqDiff_ahead (_ : c.At r base) {offset : Nat} (after : base < offset)
    (near : offset < base + halfSpace) :
    ¬seqDiff (c.seqAt offset) (c.seqAt base) < 0 ∧
      0 < seqDiff (c.seqAt offset) (c.seqAt base) := by
  rw [seqDiff_seqAt (Nat.le_trans after.le (Nat.le_add_right _ _)) near]
  omega

/-- A segment that waits for the hole before it. -/
theorem At.take_hold (at_ : c.At r base) {offset : Nat} (after : base < offset)
    (near : offset < base + halfSpace) (fits : r.pendingBytes + payload.length ≤ maxPendingBytes) :
    r.take (c.seqAt offset) payload wallNs seen =
      ({ r with
          pendingBytes := r.pendingBytes + payload.length
          pending := r.pending.orInsert (c.seqAt offset)
            { payload := payload, wallNs := wallNs, firstSeen := seen } }, []) := by
  obtain ⟨notBefore, ahead⟩ := at_.seqDiff_ahead after near
  unfold Reassembler.take
  rw [at_.next]
  dsimp only
  rw [if_neg notBefore, if_pos ahead, if_neg (Nat.not_lt.mpr fits)]

/-- Too much is held: the stream restarts at the segment. -/
theorem At.take_full (at_ : c.At r base) {offset : Nat} (after : base < offset)
    (near : offset < base + halfSpace) (full : maxPendingBytes < r.pendingBytes + payload.length) :
    r.take (c.seqAt offset) payload wallNs seen =
      let cleared := { r with pending := OrderedMap.empty, pendingBytes := 0 }
      ((cleared.deliver (c.seqAt offset) payload wallNs).1,
        .reset "reorder buffer full" :: (cleared.deliver (c.seqAt offset) payload wallNs).2) := by
  obtain ⟨notBefore, ahead⟩ := at_.seqDiff_ahead after near
  unfold Reassembler.take
  rw [at_.next]
  dsimp only
  rw [if_neg notBefore, if_pos ahead, if_pos full]

/-- Holding a segment keeps the position. -/
theorem At.hold (at_ : c.At r base) (wallNs seen : Nat) {offset : Nat} (after : base < offset)
    (near : offset < base + halfSpace) (fits : r.pendingBytes + payload.length ≤ maxPendingBytes)
    (occurs : OccursAt c.sent offset payload) :
    c.At { r with
      pendingBytes := r.pendingBytes + payload.length
      pending := r.pending.orInsert (c.seqAt offset)
        { payload := payload, wallNs := wallNs, firstSeen := seen } } base where
  next := at_.next
  ahead := by
    intro entry member
    rcases OrderedMap.mem_orInsert member with rfl | old
    · exact ⟨offset, ⟨rfl, after, near⟩, occurs⟩
    · exact at_.ahead entry old
  charged := Nat.le_trans OrderedMap.total_orInsert_le (Nat.add_le_add_right at_.charged _)
  bounded := fits

/-! ## Giving up on a hole -/

/-- The reassembler after it jumped to its nearest pending segment. -/
theorem At.jump (at_ : c.At r base) {first : BitVec 32} {held : Held}
    (nearest : r.nearest = some (first, held)) :
    ∃ offset, base < offset ∧ offset < base + halfSpace ∧ first = c.seqAt offset ∧
      OccursAt c.sent offset held.payload ∧
      held.payload.length ≤ r.pendingBytes ∧
      c.At { next := some first
             pending := r.pending.erase first
             pendingBytes := r.pendingBytes - held.payload.length } offset := by
  have member : (first, held) ∈ r.pending := List.minOn?_mem nearest
  obtain ⟨offset, placed, occurs⟩ := at_.ahead _ member
  have weights : heldBytes r.pending =
      held.payload.length + heldBytes (r.pending.erase first) := OrderedMap.total_erase member
  have charged := at_.charged
  have bounded := at_.bounded
  refine ⟨offset, placed.2.1, placed.2.2, placed.1, occurs, by omega,
    congrArg some placed.1, ?_, ?_, ?_⟩
  · intro entry left
    obtain ⟨within, other⟩ := OrderedMap.mem_erase.mp left
    obtain ⟨later, placedLater, occursLater⟩ := at_.ahead entry within
    have nearer : seqDiff first (r.next.getD first) ≤ seqDiff entry.1 (r.next.getD entry.1) := by
      have least := List.apply_minOn_le_of_mem
        (f := fun entry : BitVec 32 × Held => seqDiff entry.1 (r.next.getD entry.1)) within
      rwa [List.minOn_eq_of_minOn?_eq_some nearest] at least
    rw [at_.next] at nearer
    dsimp only [Option.getD_some] at nearer
    rw [placedLater.1, show first = c.seqAt offset from placed.1,
      seqDiff_seqAt (by have := placed.2.1; omega) placed.2.2,
      seqDiff_seqAt (by have := placedLater.2.1; omega) placedLater.2.2] at nearer
    have apart : offset ≠ later := by
      rintro rfl
      exact other (placedLater.1.trans placed.1.symm)
    exact ⟨later, placedLater.advance placed.2.1.le (by omega), occursLater⟩
  · dsimp only
    omega
  · dsimp only
    omega

end Connection

end MarketBenchmark.Tap
