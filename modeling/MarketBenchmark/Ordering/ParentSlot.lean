import MarketBenchmark.Ordering.Layout
import MarketBenchmark.Ordering.Blocks

/-!
# The parent slot, written and read

A frame of the new layout as bytes, part by part, and what the structural
parse reads of it: exactly the parts, whatever the hashes are and whatever
follows the frame.
-/

namespace MarketBenchmark

open Foundation.Panics
open Foundation.Endian
open Foundation.Streams

variable (payload : Slice)

/-! ## Certificate tails -/

/-- `fc u32` -/
def markedU32 (value : UInt32) : List UInt8 := 0xfc :: toLe 4 value.toNat

@[simp]
theorem length_markedU32 (value : UInt32) : (markedU32 value).length = 5 := rfl

/-- The certificates of a tail: none, written as a zero count byte and small bytes, or some
timed-out rounds and at least one small byte. -/
inductive Certificates where
  | plain (smalls : List UInt8) (few : smalls.length ≤ 3) (small : ∀ byte ∈ smalls, byte < 0xfb)
  | timeouts (count : Varint) (rounds : List UInt32) (smalls : List UInt8)
      (counted : count.value = rounds.length) (present : rounds ≠ [])
      (most : rounds.length ≤ tailTcMax) (nonempty : smalls ≠ []) (few : smalls.length ≤ 4)
      (small : ∀ byte ∈ smalls, byte < 0xfb)

namespace Certificates

/-- What stands before the small bytes. -/
def counted : Certificates → List UInt8
  | plain _ _ _ => []
  | timeouts count rounds _ _ _ _ _ _ _ => count.bytes ++ rounds.flatMap markedU32

def smalls : Certificates → List UInt8
  | plain smalls _ _ => 0 :: smalls
  | timeouts _ _ smalls _ _ _ _ _ _ => smalls

def rounds : Certificates → List UInt32
  | plain _ _ _ => []
  | timeouts _ rounds _ _ _ _ _ _ _ => rounds

theorem smalls_ne_nil (certificates : Certificates) : certificates.smalls ≠ [] := by
  cases certificates with
  | plain smalls few small => exact List.cons_ne_nil 0 smalls
  | timeouts count rounds smalls counted present most nonempty few small => exact nonempty

theorem length_smalls_le (certificates : Certificates) : certificates.smalls.length ≤ 4 := by
  cases certificates with
  | plain smalls few small => exact Nat.succ_le_succ few
  | timeouts count rounds smalls counted present most nonempty few small => exact few

theorem small (certificates : Certificates) : ∀ byte ∈ certificates.smalls, byte < 0xfb := by
  cases certificates with
  | plain smalls few small => exact List.forall_mem_cons.mpr ⟨by decide, small⟩
  | timeouts count rounds smalls counted present most nonempty few small => exact small

end Certificates

theorem u32At_run {value : UInt32} {i : Nat}
    (occurs : OccursAt payload.bytes i (toLe 4 value.toNat)) :
    (u32At payload i).run = .ok (some value.toNat) := by
  have here : OccursAt payload.bytes (i + 0) (toLe 4 value.toNat) := occurs
  have read : (payload.getAll i [0, 1, 2, 3]).run = .ok (some (toLe 4 value.toNat)) :=
    payload.getAll_run here
  unfold u32At
  rw [run_bind_of_some read, fromLe_toLe value.toNat_lt]
  rfl

theorem timeoutRounds_run {rounds : List UInt32} {k : Nat} (before : List Nat)
    (within : k ≤ payload.length)
    (occurs : OccursAt payload.bytes k (rounds.flatMap markedU32)) :
    (timeoutRounds payload rounds.length k before).run
      = .ok (some (before ++ rounds.map UInt32.toNat, k + 5 * rounds.length)) := by
  induction rounds generalizing k before with
  | nil => 
      rw [List.map_nil, List.append_nil]
      rfl
  | cons round rest ih =>
      obtain ⟨here, later⟩ := occursAt_append.mp occurs
      obtain ⟨tagAt, roundAt⟩ := occursAt_cons.mp here
      have room : k + 5 ≤ payload.length := here.length_le (List.cons_ne_nil _ _)
      have first : k + 1 < usizeBound := payload.add_lt within (by decide)
      have last : k + 5 < usizeBound := payload.add_lt within (by decide)
      rw [List.length_cons]
      unfold timeoutRounds
      rw [run_bind_of_some (payload.get_run tagAt), if_neg (by decide),
        run_lift_bind (addUsize_of_lt first), run_bind_of_some (u32At_run payload roundAt),
        run_lift_bind (addUsize_of_lt last), ih _ room later, List.append_assoc]
      rw [List.map_cons, Nat.mul_succ, Nat.add_comm (5 * _), ← Nat.add_assoc]
      rfl

theorem length_flatMap_markedU32 (rounds : List UInt32) :
    (rounds.flatMap markedU32).length = 5 * rounds.length := by
  induction rounds with
  | nil => rfl
  | cons round rest ih =>
      rw [List.flatMap_cons, List.length_append, ih, length_markedU32, List.length_cons]
      omega

/-- The certificates are read up to their small bytes. -/
theorem certificates_run {written : Certificates} {j : Nat}
    (occurs : OccursAt payload.bytes j (written.counted ++ written.smalls)) :
    (certificates payload j).run
      = .ok (some (written.rounds.map UInt32.toNat, j + written.counted.length)) := by
  cases written with
  | plain smalls few small =>
      -- the zero byte is no count of certificates
      have split : OccursAt payload.bytes j ([0] ++ smalls) := occurs
      have zeroAt : OccursAt payload.bytes j (Varint.bytes ⟨.byte, 0, by decide⟩) :=
        (occursAt_append.mp split).1
      unfold certificates
      rw [run_lift_bind (readVarint_run payload zeroAt)]
      rfl
  | timeouts count rounds smalls counted present most nonempty few small =>
      obtain ⟨occurs, _⟩ := occursAt_append.mp occurs
      obtain ⟨countAt, roundsAt⟩ := occursAt_append.mp occurs
      have room : j + count.bytes.length ≤ payload.length :=
        countAt.length_le count.bytes_ne_nil
      have first : payload.bytes[j + count.bytes.length]? = some 0xfc := by
        cases rounds with
        | nil => exact absurd rfl present
        | cons round rest => exact (occursAt_cons.mp (occursAt_append.mp roundsAt).1).1
      unfold certificates
      rw [run_lift_bind (readVarint_run payload countAt)]
      dsimp only
      rw [counted, if_pos ⟨List.length_pos_iff.mpr present, most, first⟩,
        timeoutRounds_run payload [] room roundsAt, List.nil_append]
      unfold Certificates.counted
      rw [List.length_append, length_flatMap_markedU32, Nat.add_assoc]
      rfl

theorem smallBytes_run {smalls : List UInt8} {left j : Nat} (before : Nat) {next : UInt8}
    (few : smalls.length ≤ left) (small : ∀ byte ∈ smalls, byte < 0xfb)
    (occurs : OccursAt payload.bytes j smalls)
    (nextAt : payload.bytes[j + smalls.length]? = some next) (large : ¬next < 0xfb)
    (counts : before + left ≤ isizeMax) :
    (smallBytes payload left j before).run
      = .ok (some (before + smalls.length, j + smalls.length)) := by
  induction smalls generalizing left j before with
  | nil =>
      have nextAt : payload.bytes[j]? = some next := nextAt
      unfold smallBytes
      rw [run_bind_of_some (payload.get_run nextAt)]
      cases left with
      | zero => rfl
      | succ left =>
          dsimp only
          rw [if_neg large]
          rfl
  | cons byte rest ih =>
      obtain ⟨byteAt, later⟩ := occursAt_cons.mp occurs
      have inside := payload.lt_of_getElem?_eq_some byteAt
      rw [List.length_cons] at few nextAt
      cases left with
      | zero => omega
      | succ left =>
          have one : before + 1 < usizeBound := by
            unfold usizeBound
            unfold isizeMax at counts
            omega
          have same : j + (rest.length + 1) = j + 1 + rest.length := by omega
          rw [same] at nextAt
          unfold smallBytes
          rw [run_bind_of_some (payload.get_run byteAt)]
          dsimp only
          rw [if_pos (small byte List.mem_cons_self),
            run_lift_bind (addUsize_of_lt (payload.lt_usizeBound inside)),
            run_lift_bind (addUsize_of_lt one),
            ih (before + 1) (by omega) (fun other member =>
              small other (List.mem_cons_of_mem byte member)) later nextAt (by omega),
            List.length_cons, same, Nat.add_right_comm, Nat.add_assoc before]

/-- `[fc u32][varint][certificates][fc activation][fc qc_parent]` -/
structure WrittenTail where
  opening : UInt32
  second : Varint
  certificates : Certificates
  activation : UInt32
  qcParent : UInt32

namespace WrittenTail

def bytes (tail : WrittenTail) : List UInt8 :=
  markedU32 tail.opening ++ (tail.second.bytes ++
    ((tail.certificates.counted ++ tail.certificates.smalls) ++
      (markedU32 tail.activation ++ markedU32 tail.qcParent)))

/-- The record's round: one past the highest timed-out round, else past the parent. -/
def round (tail : WrittenTail) : Nat :=
  wrappingSucc ((tail.certificates.rounds.map UInt32.toNat).max?.getD tail.qcParent.toNat)

theorem bytes_ne_nil (tail : WrittenTail) : tail.bytes ≠ [] := List.cons_ne_nil _ _

end WrittenTail

/-- The first byte of a varint is no reserved tag. -/
theorem Varint.exists_tag (number : Varint) :
    ∃ tag rest, number.bytes = tag :: rest ∧ ¬(tag = 0xfe ∨ tag = 0xff) := by
  obtain ⟨width, value, small⟩ := number
  cases width with
  | byte =>
      refine ⟨UInt8.ofNat value, [], rfl, ?_⟩
      have below : value < 0xfb := small
      rintro (same | same)
      all_goals
        have value_eq := congrArg UInt8.toNat same
        have wide : (0xfe : UInt8).toNat = 254 := rfl
        have reserved : (0xff : UInt8).toNat = 255 := rfl
        rw [UInt8.toNat_ofNat'] at value_eq
        omega
  | u16 => exact ⟨0xfb, toLe 2 value, rfl, by decide⟩
  | u32 => exact ⟨0xfc, toLe 4 value, rfl, by decide⟩
  | u64 => exact ⟨0xfd, toLe 8 value, rfl, by decide⟩

theorem parseTail_run {tail : WrittenTail} {start : Nat}
    (occurs : OccursAt payload.bytes start tail.bytes) :
    (parseTail payload start).run = .ok (some
      { activation := tail.activation.toNat
        round := tail.round
        stop := start + tail.bytes.length }) := by
  have room : start + tail.bytes.length ≤ payload.length := occurs.length_le tail.bytes_ne_nil
  have size : tail.bytes.length = 5 + (tail.second.bytes.length +
      ((tail.certificates.counted.length + tail.certificates.smalls.length) + 10)) := by
    unfold WrittenTail.bytes
    rw [List.length_append, List.length_append, List.length_append, List.length_append,
      List.length_append]
    rfl
  obtain ⟨openingAt, occurs⟩ := occursAt_append.mp occurs
  obtain ⟨secondAt, occurs⟩ := occursAt_append.mp occurs
  obtain ⟨certificatesAt, occurs⟩ := occursAt_append.mp occurs
  obtain ⟨activationAt, parentAt⟩ := occursAt_append.mp occurs
  obtain ⟨_, smallsAt⟩ := occursAt_append.mp certificatesAt
  rw [length_markedU32] at *
  rw [List.length_append] at activationAt parentAt
  generalize secondEnd : start + 5 + tail.second.bytes.length = j at *
  generalize smallsBegin : j + tail.certificates.counted.length = k at *
  have smallsEnd : j + (tail.certificates.counted.length + tail.certificates.smalls.length)
      = k + tail.certificates.smalls.length := by omega
  rw [smallsEnd] at activationAt parentAt
  generalize tailEnd : k + tail.certificates.smalls.length = m at *
  have inside : m + 10 ≤ payload.length := by omega
  have fits : ∀ {margin}, margin ≤ 10 → m + margin < usizeBound :=
    fun small => payload.lt_usizeBound (by omega)
  have openingFits : start + 5 < usizeBound := payload.lt_usizeBound (by omega)
  obtain ⟨openingTag, _⟩ := occursAt_cons.mp openingAt
  obtain ⟨tag, rest, secondBytes, known⟩ := tail.second.exists_tag
  have secondTag : payload.bytes[start + 5]? = some tag := by
    rw [secondBytes] at secondAt
    exact (occursAt_cons.mp secondAt).1
  have second := readVarint_run payload secondAt
  rw [secondEnd] at second
  have certificates := certificates_run payload certificatesAt
  rw [smallsBegin] at certificates
  obtain ⟨activationTag, activationValue⟩ := occursAt_cons.mp activationAt
  rw [length_markedU32] at parentAt
  obtain ⟨parentTag, parentValue⟩ := occursAt_cons.mp parentAt
  have smalls := smallBytes_run payload 0 tail.certificates.length_smalls_le
    tail.certificates.small smallsAt (tailEnd ▸ activationTag) (by decide) (by decide)
  rw [tailEnd] at smalls
  have present : 0 + tail.certificates.smalls.length ≠ 0 := by
    rw [Nat.zero_add]
    exact Nat.ne_of_gt (List.length_pos_iff.mpr tail.certificates.smalls_ne_nil)
  unfold parseTail
  rw [run_bind_of_some (payload.get_run openingTag), if_neg (by decide),
    run_lift_bind (addUsize_of_lt openingFits), run_bind_of_some (payload.get_run secondTag),
    if_neg known, run_lift_bind (addUsize_of_lt openingFits), run_bind_of_some second]
  dsimp only
  rw [run_bind_of_some certificates]
  dsimp only
  rw [run_bind_of_some smalls]
  dsimp only
  rw [if_neg present, run_bind_of_some (payload.get_run activationTag), if_neg (by decide),
    run_lift_bind (addUsize_of_lt (fits (by decide))),
    run_bind_of_some (payload.get_run parentTag), if_neg (by decide),
    run_lift_bind (addUsize_of_lt (fits (by decide))),
    run_bind_of_some (u32At_run payload activationValue),
    run_lift_bind (addUsize_of_lt (fits (by decide))),
    run_bind_of_some (u32At_run payload parentValue),
    run_lift_bind (addUsize_of_lt (fits (by decide)))]
  have stop : m + 10 = start + tail.bytes.length := by omega
  rw [stop]
  rfl

/-! ## Frames -/

/-- A frame of the new layout up to the end of its parent slot. -/
structure WrittenFrame where
  numbers : List Varint
  eight : numbers.length = 8
  signers : Varint
  proposer : Vector UInt8 20
  txHashes : List Hash32
  present : txHashes ≠ []
  few : txHashes.length ≤ maxBundleHashes
  tail : WrittenTail

namespace WrittenFrame

/-- The hash count in its shortest form. -/
def count (frame : WrittenFrame) : Varint :=
  if short : frame.txHashes.length < 0xfb then
    { width := .byte, value := frame.txHashes.length, fits := short }
  else
    { width := .u16
      value := frame.txHashes.length
      fits := Nat.lt_of_le_of_lt frame.few (by decide) }

def bytes (frame : WrittenFrame) : List UInt8 :=
  0x00 :: (frame.numbers.flatMap Varint.bytes ++ (frame.signers.bytes ++
    (frame.proposer.toList ++ (frame.count.bytes ++
      (hashBytes frame.txHashes ++ frame.tail.bytes)))))

/-- The record of the parent slot. -/
def record (frame : WrittenFrame) : BlockHeader where
  proposer := frame.proposer
  round := frame.tail.round
  txHashes := frame.txHashes

theorem count_value (frame : WrittenFrame) : frame.count.value = frame.txHashes.length := by
  unfold count
  split <;> rfl

/-- The count does not read as the marker of the old layout. -/
theorem exists_countTag (frame : WrittenFrame) :
    ∃ tag rest, frame.count.bytes = tag :: rest ∧ tag ≠ 0xfc := by
  unfold count
  split
  · next short =>
      refine ⟨UInt8.ofNat frame.txHashes.length, [], rfl, fun same => ?_⟩
      have value := congrArg UInt8.toNat same
      rw [UInt8.toNat_ofNat'] at value
      have marker : (0xfc : UInt8).toNat = 252 := rfl
      omega
  · exact ⟨0xfb, _, rfl, by decide⟩

end WrittenFrame

theorem skipVarints_run {numbers : List Varint} {p : Nat}
    (occurs : OccursAt payload.bytes p (numbers.flatMap Varint.bytes)) :
    (skipVarints payload numbers.length p).run
      = .ok (some (p + (numbers.flatMap Varint.bytes).length)) := by
  induction numbers generalizing p with
  | nil => rfl
  | cons number rest ih =>
      obtain ⟨here, later⟩ := occursAt_append.mp occurs
      rw [List.length_cons]
      unfold skipVarints
      rw [run_bind_of_some (readVarint_run payload here)]
      refine (ih later).trans ?_
      rw [List.flatMap_cons, List.length_append, Nat.add_assoc]

theorem slotStart_run {numbers : List Varint} {signers : Varint} (eight : numbers.length = 8)
    (occurs : OccursAt payload.bytes 0 (0x00 :: (numbers.flatMap Varint.bytes ++ signers.bytes))) :
    (slotStart payload).run
      = .ok (some (1 + (numbers.flatMap Varint.bytes).length + signers.bytes.length)) := by
  obtain ⟨zeroAt, occurs⟩ := occursAt_cons.mp occurs
  obtain ⟨numbersAt, signersAt⟩ := occursAt_append.mp occurs
  have opened : payload.bytes.head? = some 0x00 := by rwa [List.head?_eq_getElem?]
  have skipped := skipVarints_run payload numbersAt
  rw [eight] at skipped
  unfold slotStart
  rw [if_neg (not_not.mpr opened), run_bind_of_some skipped,
    run_bind_of_some (readVarint_run payload signersAt)]
  rfl

theorem parseSlot_run {frame : WrittenFrame}
    (occurs : OccursAt payload.bytes 0 frame.bytes) :
    ∃ slot, (parseSlot payload).run = .ok (some slot) ∧ slot.legacy = false ∧
      slot.header = frame.record := by
  have whole := occurs.length_le (List.cons_ne_nil _ _)
  unfold WrittenFrame.bytes at whole
  obtain ⟨zeroAt, occurs⟩ := occursAt_cons.mp occurs
  obtain ⟨numbersAt, occurs⟩ := occursAt_append.mp occurs
  obtain ⟨signersAt, occurs⟩ := occursAt_append.mp occurs
  obtain ⟨proposerAt, occurs⟩ := occursAt_append.mp occurs
  obtain ⟨countAt, occurs⟩ := occursAt_append.mp occurs
  obtain ⟨hashesAt, tailAt⟩ := occursAt_append.mp occurs
  have start := slotStart_run payload frame.eight
    (occursAt_cons.mpr ⟨zeroAt, occursAt_append.mpr ⟨numbersAt, signersAt⟩⟩)
  rw [Nat.zero_add] at *
  generalize slotAt : 1 + (frame.numbers.flatMap Varint.bytes).length
    + frame.signers.bytes.length = p at *
  rw [Vector.length_toList] at *
  have proposerRoom : p + 20 ≤ payload.length := by
    have room := proposerAt.length_le (List.ne_nil_of_length_pos (by
      rw [Vector.length_toList]
      decide))
    rwa [Vector.length_toList] at room
  have tailRoom := tailAt.length_le frame.tail.bytes_ne_nil
  rw [length_hashBytes] at tailAt tailRoom
  obtain ⟨tag, rest, countBytes, current⟩ := frame.exists_countTag
  have tagAt : payload.bytes[p + 20]? = some tag := by
    rw [countBytes] at countAt
    exact (occursAt_cons.mp countAt).1
  have proposer : copyArray 20 (payload.cut p (p + 20)) = .ok frame.proposer :=
    copyArray_of_eq (payload.cut_of_occursAt proposerAt (by rw [Vector.length_toList]))
  generalize hashesBegin : p + 20 + frame.count.bytes.length = k at *
  have hashesRoom : k + 32 * frame.txHashes.length ≤ payload.length := by
    change _ ≤ payload.bytes.length
    omega
  have hashes := readHashes_run payload frame.few hashesRoom
    (copyHashes_of_occursAt payload hashesAt)
  have size : frame.txHashes.length * 32 = 32 * frame.txHashes.length := Nat.mul_comm _ _
  have sizeFits : frame.txHashes.length * 32 < usizeBound := by
    have bound := payload.lt_usizeBound hashesRoom
    omega
  have endFits : k + frame.txHashes.length * 32 < usizeBound := by
    rw [size]
    exact payload.lt_usizeBound hashesRoom
  rw [← size] at tailAt
  unfold parseSlot
  rw [run_bind_of_some start, run_bind_of_some (checkedAdd_of_lt
      (payload.lt_usizeBound proposerRoom)),
    run_bind_of_some (payload.getRange_run (Nat.le_add_right p 20) proposerRoom),
    run_lift_bind proposer, run_bind_of_some (payload.get_run tagAt), if_neg current]
  have counted := readVarint_run payload countAt
  rw [hashesBegin, frame.count_value] at counted
  rw [run_bind_of_some counted]
  dsimp only
  rw [run_bind_of_some hashes, run_lift_bind (mulUsize_of_lt sizeFits),
    run_lift_bind (addUsize_of_lt endFits), run_bind_of_some (parseTail_run payload tailAt)]
  exact ⟨_, rfl, rfl, rfl⟩

/-- The parse undoes the encoding: within the window the first record is the one written,
outside it there is none, whatever follows the frame. -/
theorem findBlockRecords_written (frame : WrittenFrame) (suffix : List UInt8)
    (written : payload.bytes = frame.bytes ++ suffix) (roundLo roundHi : Nat) :
    (roundLo ≤ frame.record.round ∧ frame.record.round ≤ roundHi →
      ∃ rest, findBlockRecords payload roundLo roundHi = .ok (frame.record :: rest)) ∧
    (¬(roundLo ≤ frame.record.round ∧ frame.record.round ≤ roundHi) →
      findBlockRecords payload roundLo roundHi = .ok []) := by
  have occurs : OccursAt payload.bytes 0 frame.bytes := by
    rw [written]
    exact List.prefix_append _ _
  obtain ⟨slot, ran, current, header⟩ := parseSlot_run payload occurs
  obtain ⟨result, same, facts⟩ := yields_parseSlot payload
  rw [ran] at same
  obtain ⟨inside, _⟩ := facts slot (Except.ok.inj same).symm
  unfold findBlockRecords
  rw [bind_of_ok ran]
  dsimp only
  rw [current, if_neg Bool.false_ne_true, header]
  constructor
  · rintro ⟨notBefore, notAfter⟩
    have records : slot.records = [frame.record] := by
      unfold Slot.records
      rw [header]
      exact if_neg frame.present
    rw [if_neg (by omega)]
    obtain ⟨found, tailed, adds⟩ := returns_tailedRecords payload slot inside
    rw [tailed]
    rcases adds with ⟨rfl, _⟩ | ⟨_, own, _, _, _, _, rfl⟩
    · exact ⟨[], congrArg Except.ok records⟩
    · exact ⟨[own], congrArg (fun parent => Except.ok (parent ++ [own])) records⟩
  · intro outside
    rw [if_pos (by omega)]
    rfl

def sampleVarint : Varint := ⟨.byte, 7, by decide⟩

/-- A frame of round 13 with one hash and one timeout certificate. -/
def sampleWritten : WrittenFrame where
  numbers := List.replicate 8 sampleVarint
  eight := rfl
  signers := sampleVarint
  proposer := Vector.replicate 20 1
  txHashes := [sampleHash]
  present := List.cons_ne_nil _ _
  few := by decide
  tail :=
    { opening := 3
      second := sampleVarint
      certificates := .timeouts ⟨.byte, 1, by decide⟩ [12] [0] rfl (by decide) (by decide)
        (by decide) (by decide) (List.forall_mem_singleton.mpr (by decide))
      activation := 1
      qcParent := 11 }

/-- The frame and some bytes behind it. -/
def samplePayload : Slice := ⟨sampleWritten.bytes ++ [0xfc, 1, 2], by decide +kernel⟩

theorem findBlockRecords_sample :
    (10 ≤ sampleWritten.record.round ∧ sampleWritten.record.round ≤ 20 →
      ∃ rest, findBlockRecords samplePayload 10 20 = .ok (sampleWritten.record :: rest)) ∧
    (¬(10 ≤ sampleWritten.record.round ∧ sampleWritten.record.round ≤ 20) →
      findBlockRecords samplePayload 10 20 = .ok []) :=
  findBlockRecords_written samplePayload sampleWritten [0xfc, 1, 2] rfl 10 20

end MarketBenchmark
