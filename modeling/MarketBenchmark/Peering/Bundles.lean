import MarketBenchmark.Peering.LengthIndex

/-!
# The first signature of a bundle

A bundle payload has a prelude of four bytes before its length index, and the
reader tries the prelude's anchors first.  The own index of a bundle always
validates, so the reader returns the signature of the first record unless
another index stands in the prelude.
-/

namespace MarketBenchmark.Peering

open Foundation
open Foundation.Panics
open Foundation.Endian
open Foundation.Streams

/-! ## Bundles -/

/-- A bundle payload; the first record starts with the signature. -/
structure Bundle where
  bodyLen : Varint
  prelude : List UInt8
  preludeLength : prelude.length = 4
  index : LengthIndex
  signature : Hash32
  signed : List UInt8
  others : List (List UInt8)
  matching : ((signature.toList ++ signed) :: others).map List.length =
    index.lengths.map MsgpackUint.value
  trailer : List UInt8
  trailerLength : trailer.length ≤ 256

namespace Bundle

variable (bundle : Bundle)

def records : List (List UInt8) := (bundle.signature.toList ++ bundle.signed) :: bundle.others

def bytes : List UInt8 :=
  0x01 :: bundle.bodyLen.bytes ++ bundle.prelude ++ bundle.index.bytes ++ bundle.records.flatten ++
    bundle.trailer

/-- Where the prelude starts. -/
def bodyStart : Nat := 1 + bundle.bodyLen.bytes.length

theorem length_records : bundle.records.flatten.length = sumOf bundle.index.lengths := by
  rw [List.length_flatten]
  exact congrArg List.sum bundle.matching

theorem length_bytes : bundle.bytes.length =
    bundle.bodyStart + 4 + bundle.index.bytes.length + sumOf bundle.index.lengths +
      bundle.trailer.length := by
  unfold bytes bodyStart
  rw [List.length_append, List.length_append, length_records, List.length_append,
    List.length_append, bundle.preludeLength, List.length_cons, Nat.add_comm 1]

theorem length_lengthBytes_le (lengths : List MsgpackUint) :
    (lengthBytes lengths).length ≤ 9 * lengths.length := by
  induction lengths with
  | nil => exact Nat.zero_le _
  | cons number rest ih =>
      have first := number.length_bytes_le
      have split : (lengthBytes (number :: rest)).length =
          number.bytes.length + (lengthBytes rest).length := List.length_append
      rw [split, List.length_cons]
      omega

theorem length_varint_le (number : Varint) : number.bytes.length ≤ 9 := by
  unfold Varint.bytes
  split <;> simp

/-- No bundle outgrows the memory. -/
theorem bytes_short : bundle.bytes.length ≤ isizeMax := by
  have varint := length_varint_le bundle.bodyLen
  have header := bundle.index.form.length_header_le bundle.index.lengths.length
  have lengths := length_lengthBytes_le bundle.index.lengths
  have few := bundle.index.few
  have sum := bundle.index.sum_small
  have trailer := bundle.trailerLength
  have index : bundle.index.bytes.length ≤ 5 + 9 * bundle.index.lengths.length := by
    unfold LengthIndex.bytes
    rw [List.length_append]
    omega
  have total := bundle.length_bytes
  unfold bodyStart at total
  unfold isizeMax
  omega

def payload : Slice where
  bytes := bundle.bytes
  short := bundle.bytes_short

/-! ## Where its parts stand -/

theorem occurs_bodyLen : OccursAt bundle.payload.bytes 1 bundle.bodyLen.bytes := by
  change bundle.bodyLen.bytes <+: bundle.bytes.drop 1
  unfold bytes
  simp only [List.cons_append, List.drop_succ_cons, List.drop_zero, List.append_assoc]
  exact List.prefix_append _ _

theorem occurs_index :
    OccursAt bundle.payload.bytes (bundle.bodyStart + 4) bundle.index.bytes := by
  have front : (0x01 :: bundle.bodyLen.bytes ++ bundle.prelude).length = bundle.bodyStart + 4 := by
    rw [List.length_append, bundle.preludeLength, List.length_cons, bodyStart, Nat.add_comm 1]
  change bundle.index.bytes <+: bundle.bytes.drop (bundle.bodyStart + 4)
  unfold bytes
  rw [← front, List.append_assoc, List.append_assoc, List.drop_left]
  exact List.prefix_append _ _

/-- The own index of a bundle fills its payload. -/
theorem index_fills : bundle.index.Fills bundle.payload (bundle.bodyStart + 4) where
  occurs := bundle.occurs_index
  within := by
    have total := bundle.length_bytes
    change _ ≤ bundle.bytes.length
    omega
  trailer := by
    have total := bundle.length_bytes
    have trailer := bundle.trailerLength
    change bundle.bytes.length ≤ _
    omega

/-- The first record stands behind the index. -/
theorem drop_index :
    (bundle.payload.bytes.drop (bundle.bodyStart + 4 + bundle.index.bytes.length)).take 32 =
      bundle.signature.toList := by
  have front : (0x01 :: bundle.bodyLen.bytes ++ bundle.prelude ++ bundle.index.bytes).length =
      bundle.bodyStart + 4 + bundle.index.bytes.length := by
    rw [List.length_append, List.length_append, bundle.preludeLength, List.length_cons, bodyStart,
      Nat.add_comm 1]
  have behind : bundle.bytes.drop (bundle.bodyStart + 4 + bundle.index.bytes.length) =
      bundle.signature.toList ++
        (bundle.signed ++ (bundle.others.flatten ++ bundle.trailer)) := by
    unfold bytes records
    rw [← front, List.append_assoc
      (0x01 :: bundle.bodyLen.bytes ++ bundle.prelude ++ bundle.index.bytes), List.drop_left,
      List.flatten_cons]
    simp only [List.append_assoc]
  change (bundle.bytes.drop _).take 32 = _
  rw [behind]
  exact List.take_left' (Vector.length_toList)

/-- No other index stands in the prelude, or the first one there leads to the same bytes. -/
def Undisturbed : Prop :=
  ∀ offset < 4, ∀ index : LengthIndex,
    index.Fills bundle.payload (bundle.bodyStart + offset) →
    (∀ earlier < offset, ∀ other : LengthIndex,
      ¬other.Fills bundle.payload (bundle.bodyStart + earlier)) →
    (bundle.payload.bytes.drop (bundle.bodyStart + offset + index.bytes.length)).take 32 =
      bundle.signature.toList

end Bundle

/-! ## The reader -/

theorem readBincodeVarint_run (payload : Slice) {number : Varint} {i : Nat}
    (occurs : OccursAt payload.bytes i number.bytes) :
    (readBincodeVarint payload i).run = .ok (some (number.value, i + number.bytes.length)) := by
  have room : i + number.bytes.length ≤ payload.length := occurs.length_le number.bytes_ne_nil
  obtain ⟨width, value, small⟩ := number
  unfold readBincodeVarint
  cases width with
  | byte =>
      obtain ⟨tagAt, _⟩ := occursAt_cons.mp occurs
      have below : value < 0xfb := small
      have tag : (UInt8.ofNat value).toNat = value := by
        rw [UInt8.toNat_ofNat']
        omega
      have inline : UInt8.ofNat value ≤ 0xfa := by
        rw [UInt8.le_iff_toNat_le, tag]
        exact Nat.le_of_lt_succ below
      have next : i + 1 < usizeBound := payload.lt_usizeBound room
      rw [run_bind_of_some (payload.get_run tagAt), if_pos inline,
        run_lift_bind (addUsize_of_lt next)]
      exact congrArg (fun read => Except.ok (some (read, i + 1))) tag
  | u16 =>
      obtain ⟨tagAt, behind⟩ := occursAt_cons.mp occurs
      rw [run_bind_of_some (payload.get_run tagAt), if_neg (by decide), if_pos rfl]
      exact payload.readBehind_run 2 behind (length_toLe 2 value) room (fromLe_toLe small)
  | u32 =>
      obtain ⟨tagAt, behind⟩ := occursAt_cons.mp occurs
      rw [run_bind_of_some (payload.get_run tagAt), if_neg (by decide), if_neg (by decide),
        if_pos rfl]
      exact payload.readBehind_run 4 behind (length_toLe 4 value) room (fromLe_toLe small)
  | u64 =>
      obtain ⟨tagAt, behind⟩ := occursAt_cons.mp occurs
      rw [run_bind_of_some (payload.get_run tagAt), if_neg (by decide), if_neg (by decide),
        if_neg (by decide), if_pos rfl]
      exact payload.readBehind_run 8 behind (length_toLe 8 value) room (fromLe_toLe small)

/-- The reader passes over an anchor without an index. -/
theorem firstSigFrom_of_none {payload : Slice} {anchor : Nat}
    (without : ∀ index : LengthIndex, ¬index.Fills payload anchor) (rest : List Nat) :
    (firstSigFrom payload (anchor :: rest)).run = (firstSigFrom payload rest).run := by
  rw [firstSigFrom, run_lift_bind (LengthIndex.validate_eq_none without)]

theorem firstSigFrom_of_without {payload : Slice} {start count : Nat}
    (without : ∀ earlier < count, ∀ index : LengthIndex, ¬index.Fills payload (start + earlier))
    (rest : List Nat) :
    (firstSigFrom payload (List.range' start count ++ rest)).run =
      (firstSigFrom payload rest).run := by
  induction count generalizing start with
  | zero => rfl
  | succ count ih =>
      have first : ∀ index : LengthIndex, ¬index.Fills payload start :=
        without 0 (Nat.zero_lt_succ count)
      rw [List.range'_succ, List.cons_append, firstSigFrom_of_none first]
      refine ih fun earlier less index => ?_
      rw [Nat.add_right_comm]
      exact without (earlier + 1) (Nat.succ_lt_succ less) index

/-- The reader takes its 32 bytes behind the first index. -/
theorem firstSigFrom_of_fills {payload : Slice} {anchor : Nat} {index : LengthIndex}
    (fills : index.Fills payload anchor) (rest : List Nat) (signature : Hash32) :
    (firstSigFrom payload (anchor :: rest)).run = .ok (some signature) ↔
      (payload.bytes.drop (anchor + index.bytes.length)).take 32 = signature.toList := by
  have within : anchor + index.bytes.length ≤ payload.length :=
    Nat.le_trans (Nat.le_add_right _ _) fills.within
  generalize start : anchor + index.bytes.length = position at within
  have next : position + 32 < usizeBound := payload.add_lt within (by decide)
  have validated := LengthIndex.validate_run fills
  rw [start] at validated
  rw [firstSigFrom, run_lift_bind validated]
  dsimp only
  rw [run_lift_bind (addUsize_of_lt next)]
  have cut : (payload.cut position (position + 32)).bytes =
      (payload.bytes.drop position).take 32 := by
    change (payload.bytes.take (position + 32)).drop position = _
    rw [List.drop_take, Nat.add_sub_cancel_left]
  by_cases room : position + 32 ≤ payload.length
  · rw [run_bind_of_some (payload.getRange_run (Nat.le_add_right _ _) room)]
    constructor
    · intro copied
      obtain ⟨array, ran, holds⟩ := returns_copyArray
        (show (payload.cut position (position + 32)).bytes.length = 32 by
          rw [payload.length_cut room, Nat.add_sub_cancel_left])
      rw [ran] at copied
      cases copied
      rw [← cut]
      exact holds.symm
    · intro same
      rw [copyArray_of_eq (cut.trans same)]
      rfl
  · constructor
    · intro ran
      obtain ⟨part, found, _⟩ := run_bind_eq_some ran
      unfold Slice.getRange at found
      rw [if_neg fun both => room both.2] at found
      cases found
    · intro same
      have length := congrArg List.length same
      rw [Vector.length_toList, List.length_take, List.length_drop] at length
      unfold Slice.length at room
      omega

namespace Bundle

variable (bundle : Bundle)

/-- The anchors that the reader tries up to the own index, and others. -/
theorem exists_anchors : ∃ rest,
    (bundleFirstSig bundle.payload).run =
      (firstSigFrom bundle.payload (List.range' bundle.bodyStart 5 ++ rest)).run := by
  have length : bundle.bodyStart + 5 ≤ bundle.payload.length := by
    have total := bundle.length_bytes
    have header := List.length_pos_iff.mpr
      (bundle.index.form.header_ne_nil bundle.index.lengths.length)
    have index : bundle.index.bytes.length =
        (bundle.index.form.header bundle.index.lengths.length).length +
          (lengthBytes bundle.index.lengths).length := List.length_append
    change _ ≤ bundle.bytes.length
    omega
  have next : bundle.bodyStart + 16 < usizeBound :=
    bundle.payload.add_lt (by omega) (by decide)
  obtain ⟨more, size⟩ : ∃ more,
      min (bundle.bodyStart + 16) bundle.payload.length - bundle.bodyStart = 5 + more :=
    ⟨min (bundle.bodyStart + 16) bundle.payload.length - bundle.bodyStart - 5, by omega⟩
  refine ⟨List.range' (bundle.bodyStart + 5) more, ?_⟩
  unfold bundleFirstSig
  rw [run_bind_of_some (readBincodeVarint_run bundle.payload bundle.occurs_bodyLen)]
  change ((liftM (addUsize bundle.bodyStart 16) : Fallible Nat) >>= _).run = _
  rw [run_lift_bind (addUsize_of_lt next)]
  dsimp only
  change (firstSigFrom bundle.payload (List.range' bundle.bodyStart
    (min (bundle.bodyStart + 16) bundle.payload.length - bundle.bodyStart))).run = _
  rw [size, ← List.range'_append_1]

/-- What the reader returns is decided at the first anchor with an index. -/
theorem run_iff_of_first {offset : Nat} {index : LengthIndex} (within : offset ≤ 4)
    (fills : index.Fills bundle.payload (bundle.bodyStart + offset))
    (without : ∀ earlier < offset, ∀ other : LengthIndex,
      ¬other.Fills bundle.payload (bundle.bodyStart + earlier)) :
    (bundleFirstSig bundle.payload).run = .ok (some bundle.signature) ↔
      (bundle.payload.bytes.drop (bundle.bodyStart + offset + index.bytes.length)).take 32 =
        bundle.signature.toList := by
  obtain ⟨rest, same⟩ := bundle.exists_anchors
  obtain ⟨more, split⟩ := Nat.exists_eq_add_of_le within
  have anchors : List.range' bundle.bodyStart 5 = List.range' bundle.bodyStart offset ++
      (bundle.bodyStart + offset) :: List.range' (bundle.bodyStart + offset + 1) more := by
    have five : 5 = offset + (more + 1) := by omega
    rw [five, ← List.range'_append_1, List.range'_succ]
  rw [same, anchors, List.append_assoc, firstSigFrom_of_without without]
  exact firstSigFrom_of_fills fills _ bundle.signature

end Bundle

/-- Indices that fill the payload from one anchor are equally long. -/
theorem LengthIndex.Fills.length_eq {payload : Slice} {anchor : Nat} {first second : LengthIndex}
    (firstFills : first.Fills payload anchor) (secondFills : second.Fills payload anchor) :
    first.bytes.length = second.bytes.length := by
  have same := (validate_run firstFills).symm.trans (validate_run secondFills)
  exact Nat.add_left_cancel (Option.some.inj (Except.ok.inj same))

/--
For every bundle payload, in every form of its numbers and whatever its prelude,
records and trailer hold, the reader returns the first 32 bytes of the first
record exactly when no length index that fills the payload stands in the
prelude, or the first one there leads to these bytes as well.
-/
theorem first_sig_of_undisturbed (bundle : Bundle) :
    (bundleFirstSig bundle.payload).run = .ok (some bundle.signature) ↔ bundle.Undisturbed := by
  have some_index : ∃ offset, ∃ index : LengthIndex,
      index.Fills bundle.payload (bundle.bodyStart + offset) :=
    ⟨4, bundle.index, bundle.index_fills⟩
  classical
  obtain ⟨index, fills⟩ := Nat.find_spec some_index
  have least : ∀ earlier < Nat.find some_index, ∀ other : LengthIndex,
      ¬other.Fills bundle.payload (bundle.bodyStart + earlier) :=
    fun earlier less other otherFills => Nat.find_min some_index less ⟨other, otherFills⟩
  have within : Nat.find some_index ≤ 4 :=
    Nat.find_min' some_index ⟨bundle.index, bundle.index_fills⟩
  rw [bundle.run_iff_of_first within fills least]
  generalize Nat.find some_index = offset at index fills least within
  constructor
  · intro same other less decoy decoyFills before
    rcases Nat.lt_trichotomy other offset with under | rfl | above
    · exact absurd decoyFills (least other under decoy)
    · rw [decoyFills.length_eq fills]
      exact same
    · exact absurd fills (before offset above index)
  · intro undisturbed
    rcases Nat.lt_or_eq_of_le within with less | rfl
    · exact undisturbed offset less index fills least
    · rw [fills.length_eq bundle.index_fills]
      exact bundle.drop_index

/-- A bundle with one record of 32 bytes whose prelude reads as an index of one record of 32
bytes. -/
def decoyBundle : Bundle where
  bodyLen := { width := .byte, value := 0, fits := by decide }
  prelude := [0x91, 0x20, 0, 0]
  preludeLength := rfl
  index :=
    { form := .fixarray
      lengths := [{ form := .fixint, value := 32, fits := by decide }]
      fits := by decide
      nonempty := by decide
      few := by decide
      bounded := by simp [IsRecordLength] }
  signature := Vector.replicate 32 7
  signed := []
  others := []
  matching := rfl
  trailer := []
  trailerLength := by decide

theorem decoy_bundle_misread :
    ∃ other : Hash32, (bundleFirstSig decoyBundle.payload).run = .ok (some other) ∧
      other ≠ decoyBundle.signature :=
  ⟨#v[0, 0, 0x91, 0x20, 7, 7, 7, 7, 7, 7, 7, 7, 7, 7, 7, 7, 7, 7, 7, 7, 7, 7, 7, 7, 7, 7, 7, 7,
    7, 7, 7, 7], rfl, by decide⟩

end MarketBenchmark.Peering
