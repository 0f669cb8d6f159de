import MarketBenchmark.Tap.Contiguity
import MarketBenchmark.Foundation.Panics
import MarketBenchmark.Foundation.Runs

/-!
# The accounting of the reorder buffer

`take` adds the length of a segment behind a hole to `pendingBytes` before it
asks whether the segment starts where a pending one starts.  A duplicate is not
kept, so from there on the counter exceeds the bytes that are held, until the
buffer is cleared.  It is never below them, and no subtraction underflows.
-/

namespace MarketBenchmark.Tap

open Foundation Foundation.Panics Foundation.Runs

/-! ## The calls with their subtractions checked -/

namespace Pull

/-- The variables of `take` at the head of its loop. -/
def start (r : Reassembler) (next : BitVec 32) (payload : List UInt8) (wallNs : Nat) : Pull where
  next := next + BitVec.ofNat 32 payload.length
  data := payload
  lastWall := wallNs
  pending := r.pending
  pendingBytes := r.pendingBytes

/-- `absorb`, which panics where `pending_bytes` is less than what it subtracts. -/
def absorbChecked (pull : Pull) (seq : BitVec 32) (held : Held) : Checked Pull := do
  let left ← subUsize pull.pendingBytes held.payload.length
  return { pull.absorb seq held with pendingBytes := left }

def loopChecked : Nat → Pull → Checked Pull
  | 0, pull => pure pull
  | fuel + 1, pull =>
      match pull.due with
      | none => pure pull
      | some (seq, held) => pull.absorbChecked seq held >>= loopChecked fuel

end Pull

namespace Reassembler

def deliverChecked (r : Reassembler) (next : BitVec 32) (payload : List UInt8) (wallNs : Nat) :
    Checked (Reassembler × List Delivery) := do
  let pulled ← Pull.loopChecked r.pending.entries.length (.start r next payload wallNs)
  return ({ next := some pulled.next, pending := pulled.pending,
            pendingBytes := pulled.pendingBytes },
    [.bytes pulled.data pulled.lastWall])

def takeChecked (r : Reassembler) (seq : BitVec 32) (payload : List UInt8) (wallNs seen : Nat) :
    Checked (Reassembler × List Delivery) :=
  match r.next with
  | none => pure (r, [])
  | some next =>
      if seqDiff seq next < 0 then
        let skip := (seqDiff seq next).natAbs
        if payload.length ≤ skip then pure (r, [])
        else r.deliverChecked next (payload.drop skip) wallNs
      else if 0 < seqDiff seq next then
        if maxPendingBytes < r.pendingBytes + payload.length then do
          let cleared := { r with pending := OrderedMap.empty, pendingBytes := 0 }
          let (after, out) ← cleared.deliverChecked seq payload wallNs
          return (after, .reset "reorder buffer full" :: out)
        else
          pure
            ({ r with
                pendingBytes := r.pendingBytes + payload.length
                pending := r.pending.orInsert seq
                  { payload := payload, wallNs := wallNs, firstSeen := seen } }, [])
      else r.deliverChecked next payload wallNs

def expireChecked (r : Reassembler) (now : Nat) : Checked (Reassembler × List Delivery) :=
  match r.oldest with
  | none => pure (r, [])
  | some oldest =>
      if now - oldest < reorderWait then pure (r, [])
      else
        match r.nearest with
        | none => pure (r, [])
        | some (first, held) => do
            let left ← subUsize r.pendingBytes held.payload.length
            let jumped : Reassembler :=
              { next := some first, pending := r.pending.erase first, pendingBytes := left }
            let (after, out) ← jumped.takeChecked first held.payload held.wallNs now
            return (after, .reset "sequence hole not filled (capture loss)" :: out)

def pushChecked (r : Reassembler) (seg : Segment) (now seen : Nat) :
    Checked (Reassembler × List Delivery) :=
  if seg.IsSyn then
    let out := r.resetIfReading "new connection (SYN)"
    let started := { r.clear with next := some (seg.seq + 1) }
    if seg.payload = [] then pure (started, out)
    else do
      let (after, taken) ← started.takeChecked (seg.seq + 1) seg.payload seg.wallNs seen
      return (after, out ++ taken)
  else if seg.IsRst then pure (r.clear, r.resetIfReading "connection reset (RST)")
  else if seg.payload = [] then
    if seg.IsFin ∧ r.next.isSome then pure (r.clear, [.reset "connection closed (FIN)"])
    else pure (r, [])
  else do
    let joined := { r with next := some (r.next.getD seg.seq) }
    let (taken, out) ← joined.takeChecked seg.seq seg.payload seg.wallNs seen
    let (after, expired) ← taken.expireChecked now
    return (after, out ++ expired)

def callChecked (r : Reassembler) : TapCall → Checked (Reassembler × List Delivery)
  | .push seg now seen => r.pushChecked seg now seen
  | .tick now => r.expireChecked now

end Reassembler

/-! ## By how much the counter exceeds the held bytes -/

/-- The counter is above the held bytes by the excess. -/
def Pull.Exceeds (pull : Pull) (excess : Nat) : Prop :=
  pull.pendingBytes = heldBytes pull.pending + excess

def Reassembler.Exceeds (r : Reassembler) (excess : Nat) : Prop :=
  r.pendingBytes = heldBytes r.pending + excess

/-- What `take` says when it gives up on a full buffer. -/
def bufferFull : Delivery := .reset "reorder buffer full"

variable {excess : Nat}

namespace Pull

variable {pull : Pull}

theorem Exceeds.absorb (exceeds : pull.Exceeds excess) {seq : BitVec 32} {held : Held}
    (member : (seq, held) ∈ pull.pending) :
    pull.absorbChecked seq held = .ok (pull.absorb seq held) ∧
      (pull.absorb seq held).Exceeds excess := by
  unfold Exceeds at exceeds
  have weights : heldBytes pull.pending =
      held.payload.length + heldBytes (pull.pending.erase seq) := OrderedMap.total_erase member
  have enough : held.payload.length ≤ pull.pendingBytes := by omega
  have left : pull.pendingBytes - held.payload.length =
      heldBytes (pull.pending.erase seq) + excess := by omega
  have erased : (pull.absorb seq held).pending = pull.pending.erase seq := by
    unfold Pull.absorb
    dsimp only
    split <;> rfl
  have subtracted : (pull.absorb seq held).pendingBytes =
      pull.pendingBytes - held.payload.length := by
    unfold Pull.absorb
    dsimp only
    split <;> rfl
  constructor
  · unfold absorbChecked
    rw [subUsize_of_le enough, ← subtracted]
    rfl
  · unfold Exceeds
    rw [subtracted, erased, left]

theorem Exceeds.loop (exceeds : pull.Exceeds excess) (fuel : Nat) :
    loopChecked fuel pull = .ok (loop fuel pull) ∧ (loop fuel pull).Exceeds excess := by
  induction fuel generalizing pull with
  | zero => exact ⟨rfl, exceeds⟩
  | succ fuel ih =>
      unfold loopChecked loop
      cases found : pull.due with
      | none => exact ⟨rfl, exceeds⟩
      | some entry =>
          obtain ⟨seq, held⟩ := entry
          have member : (seq, held) ∈ pull.pending := List.mem_of_find?_eq_some found
          obtain ⟨ran, absorbed⟩ := exceeds.absorb member
          dsimp only
          rw [ran]
          exact ih absorbed

end Pull

namespace Reassembler

variable {r : Reassembler}

theorem default_exceeds : default.Exceeds 0 := rfl

theorem Exceeds.deliver (exceeds : r.Exceeds excess) (next : BitVec 32) (payload : List UInt8)
    (wallNs : Nat) :
    r.deliverChecked next payload wallNs = .ok (r.deliver next payload wallNs) ∧
      (r.deliver next payload wallNs).1.Exceeds excess := by
  have started : (Pull.start r next payload wallNs).Exceeds excess := exceeds
  obtain ⟨ran, pulled⟩ := started.loop r.pending.entries.length
  refine ⟨?_, pulled⟩
  unfold deliverChecked
  rw [ran]
  rfl

theorem bufferFull_notMem_deliver {next : BitVec 32} {payload : List UInt8} {wallNs : Nat} :
    bufferFull ∉ (r.deliver next payload wallNs).2 := by
  intro member
  cases List.mem_singleton.mp member

/-- The segment starts behind a hole. -/
def Gapped (r : Reassembler) (seq : BitVec 32) : Prop :=
  ∃ next, r.next = some next ∧ 0 < seqDiff seq next

/-- `take` stores the segment: it starts behind a hole, and the counter has room for it. -/
structure Stores (r : Reassembler) (seq : BitVec 32) (payload : List UInt8) : Prop where
  gapped : r.Gapped seq
  fits : r.pendingBytes + payload.length ≤ maxPendingBytes

/-- The reassembler after giving up on the hole before a segment. -/
def emptied (r : Reassembler) : Reassembler :=
  { r with pending := OrderedMap.empty, pendingBytes := 0 }

/-- The reassembler that holds one more segment. -/
def storing (r : Reassembler) (seq : BitVec 32) (held : Held) : Reassembler :=
  { r with
    pendingBytes := r.pendingBytes + held.payload.length
    pending := r.pending.orInsert seq held }

/-- The four ways through `take`, in both of its forms. -/
inductive TakeCase (r : Reassembler) (seq : BitVec 32) (payload : List UInt8)
    (wallNs seen : Nat) : Prop where
  | drops (level : ¬r.Gapped seq)
      (checked : r.takeChecked seq payload wallNs seen = .ok (r, []))
      (same : r.take seq payload wallNs seen = (r, []))
  | delivers (next : BitVec 32) (rest : List UInt8) (level : ¬r.Gapped seq)
      (checked : r.takeChecked seq payload wallNs seen = r.deliverChecked next rest wallNs)
      (same : r.take seq payload wallNs seen = r.deliver next rest wallNs)
  | full (gapped : r.Gapped seq) (overflows : maxPendingBytes < r.pendingBytes + payload.length)
      (checked : r.takeChecked seq payload wallNs seen =
        r.emptied.deliverChecked seq payload wallNs >>= fun done =>
          pure (done.1, bufferFull :: done.2))
      (same : r.take seq payload wallNs seen =
        ((r.emptied.deliver seq payload wallNs).1,
          bufferFull :: (r.emptied.deliver seq payload wallNs).2))
  | stores (room : r.Stores seq payload)
      (checked : r.takeChecked seq payload wallNs seen =
        .ok (r.storing seq ⟨payload, wallNs, seen⟩, []))
      (same : r.take seq payload wallNs seen = (r.storing seq ⟨payload, wallNs, seen⟩, []))

theorem takeCase (r : Reassembler) (seq : BitVec 32) (payload : List UInt8)
    (wallNs seen : Nat) : r.TakeCase seq payload wallNs seen := by
  cases reading : r.next with
  | none =>
      have level : ¬r.Gapped seq := by
        rintro ⟨next, isNext, _⟩
        cases reading.symm.trans isNext
      refine .drops level ?_ ?_
      · rw [takeChecked, reading]
        rfl
      · rw [Reassembler.take, reading]
  | some next =>
      have gapped_iff : r.Gapped seq ↔ 0 < seqDiff seq next := by
        constructor
        · rintro ⟨other, isNext, after⟩
          cases Option.some.inj (reading.symm.trans isNext)
          exact after
        · exact fun after => ⟨next, reading, after⟩
      rcases lt_trichotomy (seqDiff seq next) 0 with before | level | after
      · have notGapped : ¬r.Gapped seq := fun gapped => lt_asymm before (gapped_iff.mp gapped)
        by_cases old : payload.length ≤ (seqDiff seq next).natAbs
        · refine .drops notGapped ?_ ?_
          · simp only [takeChecked, reading, if_pos before, if_pos old]
            rfl
          · simp only [Reassembler.take, reading, if_pos before, if_pos old]
        · refine .delivers next (payload.drop (seqDiff seq next).natAbs) notGapped ?_ ?_
          · simp only [takeChecked, reading, if_pos before, if_neg old]
          · simp only [Reassembler.take, reading, if_pos before, if_neg old]
      · have notGapped : ¬r.Gapped seq := fun gapped => by
          rw [gapped_iff, level] at gapped
          exact lt_irrefl _ gapped
        refine .delivers next payload notGapped ?_ ?_
        · simp only [takeChecked, reading, level, lt_irrefl, if_false]
        · simp only [Reassembler.take, reading, level, lt_irrefl, if_false]
      · have notBefore : ¬seqDiff seq next < 0 := lt_asymm after
        by_cases exceeds : maxPendingBytes < r.pendingBytes + payload.length
        · refine .full (gapped_iff.mpr after) exceeds ?_ ?_
          · simp only [takeChecked, reading, if_neg notBefore, if_pos after, if_pos exceeds,
              emptied]
            rfl
          · simp only [Reassembler.take, reading, if_neg notBefore, if_pos after,
              if_pos exceeds, emptied]
            rfl
        · refine .stores ⟨gapped_iff.mpr after, Nat.le_of_not_lt exceeds⟩ ?_ ?_
          · simp only [takeChecked, reading, if_neg notBefore, if_pos after, if_neg exceeds,
              storing]
            rfl
          · simp only [Reassembler.take, reading, if_neg notBefore, if_pos after,
              if_neg exceeds, storing]

/-- `take` charges for a segment that it then does not keep. -/
def ChargesTwice (r : Reassembler) (seq : BitVec 32) (payload : List UInt8) : Prop :=
  r.Stores seq payload ∧ r.pending.HasKey seq

theorem Exceeds.take (exceeds : r.Exceeds excess) (seq : BitVec 32) (payload : List UInt8)
    (wallNs seen : Nat) :
    r.takeChecked seq payload wallNs seen = .ok (r.take seq payload wallNs seen) ∧
      (r.ChargesTwice seq payload →
        (r.take seq payload wallNs seen).1.Exceeds (excess + payload.length)) ∧
      (¬r.ChargesTwice seq payload →
        ∃ later ≤ excess, (r.take seq payload wallNs seen).1.Exceeds later) := by
  cases r.takeCase seq payload wallNs seen with
  | drops level checked same =>
      rw [checked, same]
      exact ⟨rfl, fun twice => absurd twice.1.gapped level,
        fun _ => ⟨excess, Nat.le_refl _, exceeds⟩⟩
  | delivers next rest level checked same =>
      obtain ⟨ran, delivered⟩ := exceeds.deliver next rest wallNs
      rw [checked, same]
      exact ⟨ran, fun twice => absurd twice.1.gapped level,
        fun _ => ⟨excess, Nat.le_refl _, delivered⟩⟩
  | full gapped overflows checked same =>
      have cleared : r.emptied.Exceeds 0 := rfl
      obtain ⟨ran, delivered⟩ := cleared.deliver seq payload wallNs
      rw [checked, same, ran]
      exact ⟨rfl, fun twice => absurd twice.1.fits (Nat.not_le.mpr overflows),
        fun _ => ⟨0, Nat.zero_le _, delivered⟩⟩
  | stores room checked same =>
      rw [checked, same]
      refine ⟨rfl, fun twice => ?_, fun once => ⟨excess, Nat.le_refl _, ?_⟩⟩
      · unfold Exceeds storing at *
        dsimp only
        rw [OrderedMap.orInsert_of_hasKey twice.2, exceeds, Nat.add_assoc]
      · have fresh : ¬r.pending.HasKey seq := fun present => once ⟨room, present⟩
        have weight : heldBytes (r.pending.orInsert seq ⟨payload, wallNs, seen⟩) =
            heldBytes r.pending + payload.length := OrderedMap.total_orInsert_of_fresh fresh
        unfold Exceeds storing at *
        dsimp only
        rw [weight, exceeds]
        omega

/-- A segment that continues the stream or repeats it leaves the excess as it is. -/
theorem Exceeds.take_level (exceeds : r.Exceeds excess) {seq : BitVec 32}
    (level : ¬r.Gapped seq) (payload : List UInt8) (wallNs seen : Nat) :
    (r.take seq payload wallNs seen).1.Exceeds excess := by
  cases r.takeCase seq payload wallNs seen with
  | drops _ _ same =>
      rw [same]
      exact exceeds
  | delivers next rest _ _ same =>
      rw [same]
      exact (exceeds.deliver next rest wallNs).2
  | full gapped _ _ _ => exact absurd gapped level
  | stores room _ _ => exact absurd room.gapped level

theorem bufferFull_of_take {seq : BitVec 32} {payload : List UInt8} {wallNs seen : Nat}
    (member : bufferFull ∈ (r.take seq payload wallNs seen).2) :
    r.Gapped seq ∧ maxPendingBytes < r.pendingBytes + payload.length := by
  cases r.takeCase seq payload wallNs seen with
  | drops level checked same =>
      rw [same] at member
      cases member
  | delivers next rest level checked same =>
      rw [same] at member
      exact absurd member bufferFull_notMem_deliver
  | full gapped overflows checked same => exact ⟨gapped, overflows⟩
  | stores room checked same =>
      rw [same] at member
      cases member

theorem not_gapped_next {seq : BitVec 32} (reading : r.next = some seq) : ¬r.Gapped seq := by
  rintro ⟨next, isNext, after⟩
  cases Option.some.inj (reading.symm.trans isNext)
  unfold seqDiff Serial.distance at after
  rw [BitVec.sub_self] at after
  exact absurd after (by decide)

/-- The reassembler that continues at the segment after a hole. -/
def jumped (r : Reassembler) (first : BitVec 32) (held : Held) : Reassembler where
  next := some first
  pending := r.pending.erase first
  pendingBytes := r.pendingBytes - held.payload.length

theorem Exceeds.expire (exceeds : r.Exceeds excess) (now : Nat) :
    r.expireChecked now = .ok (r.expire now) ∧ (r.expire now).1.Exceeds excess ∧
      bufferFull ∉ (r.expire now).2 := by
  unfold expireChecked Reassembler.expire
  cases r.oldest with
  | none => exact ⟨rfl, exceeds, List.not_mem_nil⟩
  | some oldest =>
      dsimp only
      by_cases waits : now - oldest < reorderWait
      · rw [if_pos waits, if_pos waits]
        exact ⟨rfl, exceeds, List.not_mem_nil⟩
      · rw [if_neg waits, if_neg waits]
        cases nearest : r.nearest with
        | none => exact ⟨rfl, exceeds, List.not_mem_nil⟩
        | some entry =>
            obtain ⟨first, held⟩ := entry
            dsimp only
            have member : (first, held) ∈ r.pending := List.minOn?_mem nearest
            have weights : heldBytes r.pending =
                held.payload.length + heldBytes (r.pending.erase first) :=
              OrderedMap.total_erase member
            unfold Exceeds at exceeds
            have jumped : (r.jumped first held).Exceeds excess := by
              unfold Exceeds Reassembler.jumped
              dsimp only
              omega
            have level : ¬(r.jumped first held).Gapped first := not_gapped_next rfl
            obtain ⟨ran, _⟩ := jumped.take first held.payload held.wallNs now
            rw [subUsize_of_le (by omega)]
            refine ⟨?_, jumped.take_level level held.payload held.wallNs now, ?_⟩
            · show ((r.jumped first held).takeChecked first held.payload held.wallNs now >>= _) = _
              rw [ran]
              rfl
            · intro member
              rcases List.mem_cons.mp member with other | taken
              · exact absurd other (by decide)
              · exact level (bufferFull_of_take taken).1

/-- A call that charges for a segment which it does not keep. -/
def Repeats (r : Reassembler) : TapCall → Prop
  | .push seg _ _ => ¬seg.IsSyn ∧ ¬seg.IsRst ∧ seg.payload ≠ [] ∧
      r.ChargesTwice seg.seq seg.payload
  | .tick _ => False

/-- The reassembler once it reads, from the segment on if it has read nothing. -/
def joined (r : Reassembler) (seq : BitVec 32) : Reassembler :=
  { r with next := some (r.next.getD seq) }

theorem joined_gapped_iff {seq : BitVec 32} : (r.joined seq).Gapped seq ↔ r.Gapped seq := by
  cases reading : r.next with
  | none =>
      have level : ¬(r.joined seq).Gapped seq := not_gapped_next (by rw [joined, reading]; rfl)
      refine iff_of_false level ?_
      rintro ⟨next, isNext, _⟩
      cases reading.symm.trans isNext
  | some next =>
      have same : r.joined seq = r := by
        unfold joined
        rw [reading, Option.getD_some, ← reading]
      rw [same]

theorem joined_chargesTwice_iff {seq : BitVec 32} {payload : List UInt8} :
    (r.joined seq).ChargesTwice seq payload ↔ r.ChargesTwice seq payload := by
  constructor
  · rintro ⟨⟨gapped, fits⟩, present⟩
    exact ⟨⟨joined_gapped_iff.mp gapped, fits⟩, present⟩
  · rintro ⟨⟨gapped, fits⟩, present⟩
    exact ⟨⟨joined_gapped_iff.mpr gapped, fits⟩, present⟩

theorem bufferFull_notMem_resetIfReading {reason : String} (other : .reset reason ≠ bufferFull) :
    bufferFull ∉ r.resetIfReading reason := by
  intro member
  unfold resetIfReading at member
  split at member
  · exact other (List.mem_singleton.mp member).symm
  · cases member

/-- What one call does to the counter, and what it says about it. -/
structure Accounts (r : Reassembler) (excess : Nat) (call : TapCall) : Prop where
  safe : r.callChecked call = .ok (r.call call)
  repeated : r.Repeats call → ∃ later > excess, (r.call call).1.Exceeds later
  kept : ¬r.Repeats call → ∃ later ≤ excess, (r.call call).1.Exceeds later

theorem accounts_push_syn {seg : Segment} (syn : seg.IsSyn) (now seen : Nat) :
    r.Accounts excess (.push seg now seen) := by
  have apart : ¬r.Repeats (.push seg now seen) := fun repeated => repeated.1 syn
  have started : Exceeds { r.clear with next := some (seg.seq + 1) } 0 := rfl
  suffices r.pushChecked seg now seen = .ok (r.push seg now seen) ∧
      (r.push seg now seen).1.Exceeds 0 from
    ⟨this.1, fun repeated => absurd repeated apart, fun _ => ⟨0, Nat.zero_le _, this.2⟩⟩
  unfold pushChecked Reassembler.push
  rw [if_pos syn, if_pos syn]
  by_cases nothing : seg.payload = []
  · rw [if_pos nothing, if_pos nothing]
    exact ⟨rfl, rfl⟩
  · rw [if_neg nothing, if_neg nothing]
    obtain ⟨ran, _⟩ := started.take (seg.seq + 1) seg.payload seg.wallNs seen
    dsimp only
    rw [ran]
    exact ⟨rfl, started.take_level (not_gapped_next rfl) seg.payload seg.wallNs seen⟩

section Data

variable {seg : Segment}

/-- A segment that carries data is taken, and then an old hole is given up. -/
theorem push_data_eq (notSyn : ¬seg.IsSyn) (notRst : ¬seg.IsRst) (nonempty : seg.payload ≠ [])
    (now seen : Nat) :
    r.push seg now seen =
      let taken := (r.joined seg.seq).take seg.seq seg.payload seg.wallNs seen
      ((taken.1.expire now).1, taken.2 ++ (taken.1.expire now).2) := by
  unfold Reassembler.push
  rw [if_neg notSyn, if_neg notRst, if_neg nonempty]
  rfl

theorem pushChecked_data_eq (notSyn : ¬seg.IsSyn) (notRst : ¬seg.IsRst)
    (nonempty : seg.payload ≠ []) (now seen : Nat) :
    r.pushChecked seg now seen =
      (r.joined seg.seq).takeChecked seg.seq seg.payload seg.wallNs seen >>= fun taken =>
        taken.1.expireChecked now >>= fun expired =>
          pure (expired.1, taken.2 ++ expired.2) := by
  unfold pushChecked
  rw [if_neg notSyn, if_neg notRst, if_neg nonempty]
  rfl

theorem Exceeds.push_data (exceeds : r.Exceeds excess) (notSyn : ¬seg.IsSyn)
    (notRst : ¬seg.IsRst) (nonempty : seg.payload ≠ []) (now seen : Nat) :
    r.Accounts excess (.push seg now seen) := by
  have joined : (r.joined seg.seq).Exceeds excess := exceeds
  obtain ⟨ran, twice, once⟩ := joined.take seg.seq seg.payload seg.wallNs seen
  have after : ∀ later,
      ((r.joined seg.seq).take seg.seq seg.payload seg.wallNs seen).1.Exceeds later →
      r.pushChecked seg now seen = .ok (r.push seg now seen) ∧
        (r.push seg now seen).1.Exceeds later := by
    intro later taken
    obtain ⟨expired, held, _⟩ := taken.expire now
    rw [push_data_eq notSyn notRst nonempty, pushChecked_data_eq notSyn notRst nonempty, ran]
    generalize (r.joined seg.seq).take seg.seq seg.payload seg.wallNs seen = result at *
    refine ⟨?_, held⟩
    show (result.1.expireChecked now >>= _) = _
    rw [expired]
    rfl
  have length : 0 < seg.payload.length := List.length_pos_iff.mpr nonempty
  refine ⟨?_, fun repeated => ?_, fun kept => ?_⟩
  · by_cases charged : (r.joined seg.seq).ChargesTwice seg.seq seg.payload
    · exact (after _ (twice charged)).1
    · obtain ⟨later, _, taken⟩ := once charged
      exact (after later taken).1
  · have charged := joined_chargesTwice_iff.mpr repeated.2.2.2
    exact ⟨_, Nat.lt_add_of_pos_right length, (after _ (twice charged)).2⟩
  · have notCharged : ¬(r.joined seg.seq).ChargesTwice seg.seq seg.payload := fun charged =>
      kept ⟨notSyn, notRst, nonempty, joined_chargesTwice_iff.mp charged⟩
    obtain ⟨later, le, taken⟩ := once notCharged
    exact ⟨later, le, (after later taken).2⟩

end Data

theorem Exceeds.call (exceeds : r.Exceeds excess) (call : TapCall) : r.Accounts excess call := by
  cases call with
  | tick now =>
      obtain ⟨ran, held, _⟩ := exceeds.expire now
      exact ⟨ran, fun repeated => repeated.elim, fun _ => ⟨excess, Nat.le_refl _, held⟩⟩
  | push seg now seen =>
      by_cases syn : seg.IsSyn
      · exact accounts_push_syn syn now seen
      by_cases rst : seg.IsRst
      · have apart : ¬r.Repeats (.push seg now seen) := fun repeated => repeated.2.1 rst
        have cleared : r.push seg now seen =
            (r.clear, r.resetIfReading "connection reset (RST)") := by
          unfold Reassembler.push
          rw [if_neg syn, if_pos rst]
        refine ⟨?_, fun repeated => absurd repeated apart, fun _ => ⟨0, Nat.zero_le _, ?_⟩⟩
        · show r.pushChecked seg now seen = .ok (r.push seg now seen)
          rw [cleared, pushChecked, if_neg syn, if_pos rst]
          rfl
        · show (r.push seg now seen).1.Exceeds 0
          rw [cleared]
          rfl
      by_cases nothing : seg.payload = []
      · have apart : ¬r.Repeats (.push seg now seen) := fun repeated => repeated.2.2.1 nothing
        suffices r.pushChecked seg now seen = .ok (r.push seg now seen) ∧
            ∃ later ≤ excess, (r.push seg now seen).1.Exceeds later from
          ⟨this.1, fun repeated => absurd repeated apart, fun _ => this.2⟩
        unfold pushChecked Reassembler.push
        rw [if_neg syn, if_neg syn, if_neg rst, if_neg rst, if_pos nothing, if_pos nothing]
        by_cases closes : seg.IsFin ∧ r.next.isSome
        · rw [if_pos closes, if_pos closes]
          exact ⟨rfl, 0, Nat.zero_le _, rfl⟩
        · rw [if_neg closes, if_neg closes]
          exact ⟨rfl, excess, Nat.le_refl _, exceeds⟩
      · exact exceeds.push_data syn rst nothing now seen

end Reassembler

/-- The bytes that a call brings. -/
def TapCall.payload : TapCall → List UInt8
  | .push seg _ _ => seg.payload
  | .tick _ => []

namespace Reassembler

variable {r : Reassembler}

/-- A full buffer is given up on only when the counter has no room for the payload. -/
theorem Exceeds.overflows (exceeds : r.Exceeds excess) {call : TapCall}
    (gaveUp : bufferFull ∈ (r.call call).2) :
    maxPendingBytes < r.pendingBytes + call.payload.length := by
  cases call with
  | tick now => exact absurd gaveUp (exceeds.expire now).2.2
  | push seg now seen =>
      have emitted : bufferFull ∈ (r.push seg now seen).2 := gaveUp
      by_cases syn : seg.IsSyn
      · have level : ¬Gapped { r.clear with next := some (seg.seq + 1) } (seg.seq + 1) :=
          not_gapped_next rfl
        have quiet : bufferFull ∉ r.resetIfReading "new connection (SYN)" :=
          bufferFull_notMem_resetIfReading (by decide)
        unfold Reassembler.push at emitted
        rw [if_pos syn] at emitted
        by_cases nothing : seg.payload = []
        · rw [if_pos nothing] at emitted
          exact absurd emitted quiet
        · rw [if_neg nothing] at emitted
          rcases List.mem_append.mp emitted with first | taken
          · exact absurd first quiet
          · exact absurd (bufferFull_of_take taken).1 level
      by_cases rst : seg.IsRst
      · unfold Reassembler.push at emitted
        rw [if_neg syn, if_pos rst] at emitted
        exact absurd emitted (bufferFull_notMem_resetIfReading (by decide))
      by_cases nothing : seg.payload = []
      · unfold Reassembler.push at emitted
        rw [if_neg syn, if_neg rst, if_pos nothing] at emitted
        by_cases closes : seg.IsFin ∧ r.next.isSome
        · rw [if_pos closes] at emitted
          exact absurd (List.mem_singleton.mp emitted) (by decide)
        · rw [if_neg closes] at emitted
          cases emitted
      · have joined : (r.joined seg.seq).Exceeds excess := exceeds
        rw [push_data_eq syn rst nothing] at emitted
        rcases List.mem_append.mp emitted with taken | expired
        · exact (bufferFull_of_take taken).2
        · have silent : ∀ later,
              ((r.joined seg.seq).take seg.seq seg.payload seg.wallNs seen).1.Exceeds later →
              False := fun later held => (held.expire now).2.2 expired
          obtain ⟨_, twice, once⟩ := joined.take seg.seq seg.payload seg.wallNs seen
          by_cases charged : (r.joined seg.seq).ChargesTwice seg.seq seg.payload
          · exact absurd (twice charged) (silent _)
          · obtain ⟨later, _, held⟩ := once charged
            exact absurd held (silent later)

end Reassembler

/-! ## Runs -/

/--
The counter is what is held, no subtraction of a call underflows, and a call
gives up on a full buffer only when what is held and what it brings exceed the bound.
-/
structure Reassembler.Exact (r : Reassembler) : Prop where
  counted : r.pendingBytes = heldBytes r.pending
  safe : ∀ call, r.callChecked call = .ok (r.call call)
  full : ∀ call, bufferFull ∈ (r.call call).2 →
    maxPendingBytes < heldBytes r.pending + call.payload.length

theorem Reassembler.exact_iff {r : Reassembler} : r.Exact ↔ r.Exceeds 0 := by
  constructor
  · exact fun accurate => accurate.counted
  · intro exceeds
    have counted : r.pendingBytes = heldBytes r.pending := exceeds
    refine ⟨counted, fun call => (exceeds.call call).safe, fun call gaveUp => ?_⟩
    rw [← counted]
    exact exceeds.overflows gaveUp

/-- What is left after one call. -/
def tapStep (r : Reassembler) (call : TapCall) : Option Reassembler := some (r.call call).1

/-- From an exact state, the calls that keep the accounting exact are those that do not repeat a
pending segment. -/
theorem Reassembler.Exact.call_iff {before after : Reassembler} {call : TapCall}
    (accurate : before.Exact) (stepped : tapStep before call = some after) :
    after.Exact ↔ ¬before.Repeats call := by
  have accounts := (Reassembler.exact_iff.mp accurate).call call
  cases Option.some.inj stepped
  rw [Reassembler.exact_iff]
  constructor
  · intro exceeds repeated
    obtain ⟨later, more, drifted⟩ := accounts.repeated repeated
    unfold Reassembler.Exceeds at exceeds drifted
    omega
  · intro kept
    obtain ⟨later, le, exceeds⟩ := accounts.kept kept
    cases Nat.le_zero.mp le
    exact exceeds

/--
The accounting is exact in all states of a run exactly when no push of the run
repeats a segment that is pending.
-/
theorem accounting_exact_iff (calls : List TapCall) :
    (∀ executed r, executed <+: calls → run tapStep .default executed = some r → r.Exact) ↔
      StepsMeet tapStep (fun r call => ¬r.Repeats call) .default calls := by
  obtain ⟨final, executed⟩ := exists_run tapStep (fun _ _ => ⟨_, rfl⟩) .default calls
  exact holds_along_iff Reassembler.Exact (fun _ _ _ accurate stepped => accurate.call_iff stepped)
    (Reassembler.exact_iff.mpr Reassembler.default_exceeds) executed

/-- A segment behind a hole, received twice. -/
def duplicateCalls : List TapCall :=
  [.push sampleSyn 0 0, .push (sampleSegment 2 [12]) 0 0, .push (sampleSegment 2 [12]) 0 0]

/-- One byte is held, and two are counted. -/
theorem duplicate_counted_twice :
    (run tapStep .default duplicateCalls).map
        (fun r => (r.pendingBytes, heldBytes r.pending)) = some (2, 1) := by
  decide +kernel

end MarketBenchmark.Tap
