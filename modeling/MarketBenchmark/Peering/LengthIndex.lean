import MarketBenchmark.Ordering.Layout
import MarketBenchmark.Peering.WireSafety

/-!
# Length indices of bundles

A length index is a msgpack array of record lengths, in any of the forms of the
array header and of the lengths.  The reader validates an anchor exactly when
such an index stands there and its records end shortly before the payload does.
-/

namespace MarketBenchmark.Peering

open Foundation
open Foundation.Panics
open Foundation.Endian
open Foundation.Streams

variable (payload : Slice)

/-! ## Numbers -/

/-- The msgpack forms of an unsigned integer. -/
inductive UintForm where
  | fixint
  | uint8
  | uint16
  | uint32
  | uint64
  deriving DecidableEq

def UintForm.bound : UintForm → Nat
  | .fixint => 0x80
  | .uint8 => 256 ^ 1
  | .uint16 => 256 ^ 2
  | .uint32 => 256 ^ 4
  | .uint64 => 256 ^ 8

structure MsgpackUint where
  form : UintForm
  value : Nat
  fits : value < form.bound

def MsgpackUint.bytes (number : MsgpackUint) : List UInt8 :=
  match number.form with
  | .fixint => [UInt8.ofNat number.value]
  | .uint8 => 0xcc :: toBe 1 number.value
  | .uint16 => 0xcd :: toBe 2 number.value
  | .uint32 => 0xce :: toBe 4 number.value
  | .uint64 => 0xcf :: toBe 8 number.value

theorem MsgpackUint.bytes_ne_nil (number : MsgpackUint) : number.bytes ≠ [] := by
  unfold MsgpackUint.bytes
  split <;> exact List.cons_ne_nil _ _

theorem MsgpackUint.length_bytes_le (number : MsgpackUint) : number.bytes.length ≤ 9 := by
  unfold MsgpackUint.bytes
  split <;> simp [length_toBe]

theorem readMsgpackUint_run {number : MsgpackUint} {i : Nat}
    (occurs : OccursAt payload.bytes i number.bytes) :
    (readMsgpackUint payload i).run = .ok (some (number.value, i + number.bytes.length)) := by
  have room : i + number.bytes.length ≤ payload.length := occurs.length_le number.bytes_ne_nil
  obtain ⟨form, value, small⟩ := number
  unfold readMsgpackUint
  cases form with
  | fixint =>
      obtain ⟨tagAt, _⟩ := occursAt_cons.mp occurs
      have below : value < 0x80 := small
      have tag : (UInt8.ofNat value).toNat = value := by
        rw [UInt8.toNat_ofNat']
        omega
      have inline : UInt8.ofNat value ≤ 0x7f := by
        rw [UInt8.le_iff_toNat_le, tag]
        exact Nat.le_of_lt_succ below
      have next : i + 1 < usizeBound := payload.lt_usizeBound room
      rw [run_bind_of_some (payload.get_run tagAt), if_pos inline,
        run_lift_bind (addUsize_of_lt next)]
      exact congrArg (fun read => Except.ok (some (read, i + 1))) tag
  | uint8 =>
      obtain ⟨tagAt, behind⟩ := occursAt_cons.mp occurs
      rw [run_bind_of_some (payload.get_run tagAt), if_neg (by decide), if_pos rfl]
      exact payload.readBehind_run 1 behind (length_toBe 1 value) room (fromBe_toBe small)
  | uint16 =>
      obtain ⟨tagAt, behind⟩ := occursAt_cons.mp occurs
      rw [run_bind_of_some (payload.get_run tagAt), if_neg (by decide), if_neg (by decide),
        if_pos rfl]
      exact payload.readBehind_run 2 behind (length_toBe 2 value) room (fromBe_toBe small)
  | uint32 =>
      obtain ⟨tagAt, behind⟩ := occursAt_cons.mp occurs
      rw [run_bind_of_some (payload.get_run tagAt), if_neg (by decide), if_neg (by decide),
        if_neg (by decide), if_pos rfl]
      exact payload.readBehind_run 4 behind (length_toBe 4 value) room (fromBe_toBe small)
  | uint64 =>
      obtain ⟨tagAt, behind⟩ := occursAt_cons.mp occurs
      rw [run_bind_of_some (payload.get_run tagAt), if_neg (by decide), if_neg (by decide),
        if_neg (by decide), if_neg (by decide), if_pos rfl]
      exact payload.readBehind_run 8 behind (length_toBe 8 value) room (fromBe_toBe small)

/-- The number behind a tag, in one of the wide forms. -/
theorem exists_wide {i size : Nat} {tag : UInt8} {bytes : List UInt8} (form : UintForm)
    (bound : form.bound = 256 ^ size)
    (encodes : ∀ value fits, MsgpackUint.bytes ⟨form, value, fits⟩ = tag :: toBe size value)
    (tagAt : payload.bytes[i]? = some tag) (length : bytes.length = size)
    (behind : OccursAt payload.bytes (i + 1) bytes) :
    ∃ number : MsgpackUint, OccursAt payload.bytes i number.bytes ∧
      (fromBe bytes, i + (size + 1)) = (number.value, i + number.bytes.length) := by
  have fits : fromBe bytes < form.bound := by
    rw [bound, ← length]
    exact fromBe_lt bytes
  have written : MsgpackUint.bytes ⟨form, fromBe bytes, fits⟩ = tag :: bytes := by
    rw [encodes, ← length, toBe_fromBe]
  refine ⟨⟨form, fromBe bytes, fits⟩, ?_, ?_⟩
  · rw [written]
    exact occursAt_cons.mpr ⟨tagAt, behind⟩
  · rw [written, List.length_cons, length]

/-- A number that was read stands where it was read. -/
theorem readMsgpackUint_eq_some {i : Nat} {result : Nat × Nat}
    (ran : (readMsgpackUint payload i).run = .ok (some result)) :
    ∃ number : MsgpackUint, OccursAt payload.bytes i number.bytes ∧
      result = (number.value, i + number.bytes.length) := by
  unfold readMsgpackUint at ran
  obtain ⟨tag, found, ran⟩ := run_bind_eq_some ran
  have tagAt := payload.get_eq_some found
  split at ran
  next inline =>
    have fits : tag.toNat < UintForm.bound .fixint :=
      Nat.lt_succ_of_le (UInt8.le_iff_toNat_le.mp inline)
    refine ⟨⟨.fixint, tag.toNat, fits⟩, ?_, Slice.readHere_eq_some ran⟩
    refine occursAt_cons.mpr ⟨?_, occursAt_nil _⟩
    rw [UInt8.ofNat_toNat]
    exact tagAt
  split at ran
  next isTag =>
    subst isTag
    obtain ⟨bytes, length, behind, rfl⟩ := payload.readBehind_eq_some 1 fromBe ran
    exact exists_wide payload .uint8 rfl (fun _ _ => rfl) tagAt length behind
  split at ran
  next isTag =>
    subst isTag
    obtain ⟨bytes, length, behind, rfl⟩ := payload.readBehind_eq_some 2 fromBe ran
    exact exists_wide payload .uint16 rfl (fun _ _ => rfl) tagAt length behind
  split at ran
  next isTag =>
    subst isTag
    obtain ⟨bytes, length, behind, rfl⟩ := payload.readBehind_eq_some 4 fromBe ran
    exact exists_wide payload .uint32 rfl (fun _ _ => rfl) tagAt length behind
  split at ran
  next isTag =>
    subst isTag
    obtain ⟨bytes, length, behind, rfl⟩ := payload.readBehind_eq_some 8 fromBe ran
    exact exists_wide payload .uint64 rfl (fun _ _ => rfl) tagAt length behind
  · cases ran

/-! ## Array headers -/

/-- The msgpack forms of an array header. -/
inductive ArrayForm where
  | fixarray
  | array16
  | array32
  deriving DecidableEq

def ArrayForm.bound : ArrayForm → Nat
  | .fixarray => 16
  | .array16 => 256 ^ 2
  | .array32 => 256 ^ 4

def ArrayForm.header (count : Nat) : ArrayForm → List UInt8
  | .fixarray => [UInt8.ofNat (0x90 + count)]
  | .array16 => 0xdc :: toBe 2 count
  | .array32 => 0xdd :: toBe 4 count

theorem ArrayForm.header_ne_nil (form : ArrayForm) (count : Nat) : form.header count ≠ [] := by
  cases form <;> exact List.cons_ne_nil _ _

theorem ArrayForm.length_header_le (form : ArrayForm) (count : Nat) :
    (form.header count).length ≤ 5 := by
  cases form <;> simp [ArrayForm.header, length_toBe]

theorem fixarray_tag : ∀ count < 16, 0x90 ≤ UInt8.ofNat (0x90 + count) ∧
    UInt8.ofNat (0x90 + count) ≤ 0x9f ∧
    (UInt8.ofNat (0x90 + count) &&& 0x0f).toNat = count := by
  decide

theorem fixarray_count {tag : UInt8} (low : 0x90 ≤ tag) (high : tag ≤ 0x9f) :
    (tag &&& 0x0f).toNat < 16 ∧ UInt8.ofNat (0x90 + (tag &&& 0x0f).toNat) = tag := by
  have above : 0x90 ≤ tag.toNat := UInt8.le_iff_toNat_le.mp low
  have below : tag.toNat ≤ 0x9f := UInt8.le_iff_toNat_le.mp high
  obtain ⟨count, split⟩ := Nat.exists_eq_add_of_le above
  have same : UInt8.ofNat (0x90 + count) = tag := by rw [← split, UInt8.ofNat_toNat]
  have value := (fixarray_tag count (by omega)).2.2
  rw [same] at value
  rw [value]
  exact ⟨by omega, same⟩

theorem indexCount_run {form : ArrayForm} {count anchor : Nat} (small : count < form.bound)
    (occurs : OccursAt payload.bytes anchor (form.header count)) :
    (indexCount payload anchor).run =
      .ok (some (count, anchor + (form.header count).length)) := by
  have room : anchor + (form.header count).length ≤ payload.length :=
    occurs.length_le (form.header_ne_nil count)
  unfold indexCount
  cases form with
  | fixarray =>
      obtain ⟨tagAt, _⟩ := occursAt_cons.mp occurs
      obtain ⟨low, high, tag⟩ := fixarray_tag count small
      have next : anchor + 1 < usizeBound := payload.lt_usizeBound room
      rw [run_bind_of_some (payload.get_run tagAt), if_pos ⟨low, high⟩,
        run_lift_bind (addUsize_of_lt next)]
      exact congrArg (fun read => Except.ok (some (read, anchor + 1))) tag
  | array16 =>
      obtain ⟨tagAt, behind⟩ := occursAt_cons.mp occurs
      rw [run_bind_of_some (payload.get_run tagAt), if_neg (by decide), if_pos rfl]
      exact payload.readBehind_run 2 behind (length_toBe 2 count) room (fromBe_toBe small)
  | array32 =>
      obtain ⟨tagAt, behind⟩ := occursAt_cons.mp occurs
      rw [run_bind_of_some (payload.get_run tagAt), if_neg (by decide), if_neg (by decide),
        if_pos rfl]
      exact payload.readBehind_run 4 behind (length_toBe 4 count) room (fromBe_toBe small)

theorem indexCount_eq_some {anchor : Nat} {result : Nat × Nat}
    (ran : (indexCount payload anchor).run = .ok (some result)) :
    ∃ form count, count < ArrayForm.bound form ∧
      OccursAt payload.bytes anchor (form.header count) ∧
      result = (count, anchor + (form.header count).length) := by
  unfold indexCount at ran
  obtain ⟨tag, found, ran⟩ := run_bind_eq_some ran
  have tagAt := payload.get_eq_some found
  split at ran
  next both =>
    obtain ⟨small, same⟩ := fixarray_count both.1 both.2
    refine ⟨.fixarray, _, small, occursAt_cons.mpr ⟨?_, occursAt_nil _⟩,
      Slice.readHere_eq_some ran⟩
    rw [same]
    exact tagAt
  split at ran
  next isTag =>
    subst isTag
    obtain ⟨bytes, length, behind, rfl⟩ := payload.readBehind_eq_some 2 fromBe ran
    have written : ArrayForm.header (fromBe bytes) .array16 = 0xdc :: bytes := by
      rw [ArrayForm.header, ← length, toBe_fromBe]
    have small := fromBe_lt bytes
    rw [length] at small
    refine ⟨.array16, fromBe bytes, small, ?_, ?_⟩
    · rw [written]
      exact occursAt_cons.mpr ⟨tagAt, behind⟩
    · rw [written, List.length_cons, length]
  split at ran
  next isTag =>
    subst isTag
    obtain ⟨bytes, length, behind, rfl⟩ := payload.readBehind_eq_some 4 fromBe ran
    have written : ArrayForm.header (fromBe bytes) .array32 = 0xdd :: bytes := by
      rw [ArrayForm.header, ← length, toBe_fromBe]
    have small := fromBe_lt bytes
    rw [length] at small
    refine ⟨.array32, fromBe bytes, small, ?_, ?_⟩
    · rw [written]
      exact occursAt_cons.mpr ⟨tagAt, behind⟩
    · rw [written, List.length_cons, length]
  · cases ran

/-! ## Lengths -/

/-- A record length that the reader accepts. -/
def IsRecordLength (number : MsgpackUint) : Prop := 1 ≤ number.value ∧ number.value ≤ 200000

def lengthBytes (lengths : List MsgpackUint) : List UInt8 := lengths.flatMap MsgpackUint.bytes

def sumOf (lengths : List MsgpackUint) : Nat := (lengths.map MsgpackUint.value).sum

theorem sumOf_le {lengths : List MsgpackUint}
    (bounded : ∀ number ∈ lengths, IsRecordLength number) :
    sumOf lengths ≤ 200000 * lengths.length := by
  induction lengths with
  | nil => exact Nat.zero_le _
  | cons number rest ih =>
      obtain ⟨first, later⟩ := List.forall_mem_cons.mp bounded
      have below := ih later
      have value := first.2
      unfold sumOf at below ⊢
      rw [List.map_cons, List.sum_cons, List.length_cons]
      omega

theorem sumLengths_run {lengths : List MsgpackUint} {pos sum : Nat}
    (bounded : ∀ number ∈ lengths, IsRecordLength number)
    (fits : sum + sumOf lengths < usizeBound)
    (occurs : OccursAt payload.bytes pos (lengthBytes lengths)) :
    (sumLengths payload lengths.length pos sum).run =
      .ok (some (sum + sumOf lengths, pos + (lengthBytes lengths).length)) := by
  induction lengths generalizing pos sum with
  | nil => rfl
  | cons number rest ih =>
      obtain ⟨first, later⟩ := List.forall_mem_cons.mp bounded
      obtain ⟨here, behind⟩ := occursAt_append.mp occurs
      have split : sumOf (number :: rest) = number.value + sumOf rest := List.sum_cons
      have length : (lengthBytes (number :: rest)).length =
          number.bytes.length + (lengthBytes rest).length := List.length_append
      rw [split] at fits ⊢
      rw [length, List.length_cons]
      unfold sumLengths
      rw [run_bind_of_some (readMsgpackUint_run payload here)]
      dsimp only
      have accepted : ¬¬(1 ≤ number.value ∧ number.value ≤ 200000) := not_not.mpr first
      rw [if_neg accepted, run_bind_of_some (checkedAdd_of_lt (by omega)),
        ih later (by omega) behind, Nat.add_assoc, Nat.add_assoc]

theorem sumLengths_eq_some {count pos sum : Nat} {result : Nat × Nat}
    (ran : (sumLengths payload count pos sum).run = .ok (some result)) :
    ∃ lengths : List MsgpackUint, lengths.length = count ∧
      (∀ number ∈ lengths, IsRecordLength number) ∧
      OccursAt payload.bytes pos (lengthBytes lengths) ∧
      result = (sum + sumOf lengths, pos + (lengthBytes lengths).length) := by
  induction count generalizing pos sum with
  | zero =>
      cases ran
      exact ⟨[], rfl, fun _ member => absurd member List.not_mem_nil, occursAt_nil pos, rfl⟩
  | succ count ih =>
      unfold sumLengths at ran
      obtain ⟨read, found, ran⟩ := run_bind_eq_some ran
      obtain ⟨number, here, rfl⟩ := readMsgpackUint_eq_some payload found
      dsimp only at ran
      split at ran
      · cases ran
      next bounded =>
        obtain ⟨total, added, ran⟩ := run_bind_eq_some ran
        have same : total = sum + number.value := by
          obtain ⟨result, ran, meets⟩ := yields_checkedAdd sum number.value
          rw [ran] at added
          exact (meets total (Except.ok.inj added)).1
        subst same
        obtain ⟨lengths, length, all, behind, rfl⟩ := ih ran
        refine ⟨number :: lengths, congrArg (· + 1) length,
          List.forall_mem_cons.mpr ⟨not_not.mp bounded, all⟩,
          occursAt_append.mpr ⟨here, behind⟩, ?_⟩
        have split : sumOf (number :: lengths) = number.value + sumOf lengths := List.sum_cons
        have grown : (lengthBytes (number :: lengths)).length =
            number.bytes.length + (lengthBytes lengths).length := List.length_append
        rw [split, grown, Nat.add_assoc, Nat.add_assoc]

/-! ## Indices -/

/-- A msgpack array of 1 to 100000 record lengths. -/
structure LengthIndex where
  form : ArrayForm
  lengths : List MsgpackUint
  fits : lengths.length < form.bound
  nonempty : 1 ≤ lengths.length
  few : lengths.length ≤ 100000
  bounded : ∀ number ∈ lengths, IsRecordLength number

namespace LengthIndex

def bytes (index : LengthIndex) : List UInt8 :=
  index.form.header index.lengths.length ++ lengthBytes index.lengths

/-- The index stands at the anchor, and its records fill the payload up to a small trailer. -/
structure Fills (payload : Slice) (anchor : Nat) (index : LengthIndex) : Prop where
  occurs : OccursAt payload.bytes anchor index.bytes
  within : anchor + index.bytes.length + sumOf index.lengths ≤ payload.length
  trailer : payload.length ≤ anchor + index.bytes.length + sumOf index.lengths + 256

variable {payload} {index : LengthIndex} {anchor : Nat}

theorem sum_small (index : LengthIndex) : sumOf index.lengths ≤ 20000000000 := by
  have below := sumOf_le index.bounded
  have few := index.few
  omega

theorem validate_run (fills : index.Fills payload anchor) :
    (validateLengthIndex payload anchor).run = .ok (some (anchor + index.bytes.length)) := by
  obtain ⟨header, lengths⟩ := occursAt_append.mp fills.occurs
  have within := fills.within
  have trailer := fills.trailer
  have size : index.bytes.length =
      (index.form.header index.lengths.length).length + (lengthBytes index.lengths).length :=
    List.length_append
  have bound := payload.lt_usizeBound within
  have counted : ¬¬(1 ≤ index.lengths.length ∧ index.lengths.length ≤ 100000) :=
    not_not.mpr ⟨index.nonempty, index.few⟩
  unfold validateLengthIndex
  rw [run_bind_of_some (indexCount_run payload index.fits header)]
  dsimp only
  rw [if_neg counted,
    run_bind_of_some (sumLengths_run payload index.bounded (by omega) lengths)]
  dsimp only
  rw [Nat.zero_add, Nat.add_assoc, ← size, run_bind_of_some (checkedAdd_of_lt bound),
    if_neg (Nat.not_lt.mpr within), run_lift_bind (subUsize_of_le within),
    if_neg (by omega)]
  rfl

theorem validate_eq_some {start : Nat}
    (ran : (validateLengthIndex payload anchor).run = .ok (some start)) :
    ∃ index : LengthIndex, index.Fills payload anchor ∧ start = anchor + index.bytes.length := by
  unfold validateLengthIndex at ran
  obtain ⟨read, counted, ran⟩ := run_bind_eq_some ran
  obtain ⟨form, count, fits, header, rfl⟩ := indexCount_eq_some payload counted
  dsimp only at ran
  split at ran
  · cases ran
  next inRange =>
    obtain ⟨nonempty, few⟩ := not_not.mp inRange
    obtain ⟨read, summed, ran⟩ := run_bind_eq_some ran
    obtain ⟨lengths, rfl, bounded, behind, rfl⟩ := sumLengths_eq_some payload summed
    obtain ⟨total, added, ran⟩ := run_bind_eq_some ran
    have same : total = anchor + (form.header lengths.length).length +
        (lengthBytes lengths).length + (0 + sumOf lengths) := by
      obtain ⟨result, ran, meets⟩ := yields_checkedAdd
        (anchor + (form.header lengths.length).length + (lengthBytes lengths).length)
        (0 + sumOf lengths)
      rw [ran] at added
      exact (meets total (Except.ok.inj added)).1
    subst same
    split at ran
    · cases ran
    next within =>
      obtain ⟨trailer, taken, ran⟩ := run_lift_bind_eq_some ran
      rw [subUsize_of_le (Nat.le_of_not_lt within)] at taken
      cases taken
      split at ran
      · cases ran
      next short =>
        have size : (form.header lengths.length ++ lengthBytes lengths).length =
            (form.header lengths.length).length + (lengthBytes lengths).length :=
          List.length_append
        refine ⟨⟨form, lengths, fits, nonempty, few, bounded⟩,
          ⟨occursAt_append.mpr ⟨header, behind⟩, ?_, ?_⟩, ?_⟩
        · dsimp only [bytes]
          omega
        · dsimp only [bytes]
          omega
        · cases ran
          dsimp only [bytes]
          rw [size, Nat.add_assoc]

/-- An anchor validates exactly when an index stands there whose records fill the payload. -/
theorem validate_iff {start : Nat} :
    (validateLengthIndex payload anchor).run = .ok (some start) ↔
      ∃ index : LengthIndex, index.Fills payload anchor ∧ start = anchor + index.bytes.length := by
  constructor
  · exact validate_eq_some
  · rintro ⟨index, fills, rfl⟩
    exact validate_run fills

theorem validate_eq_none (without : ∀ index : LengthIndex, ¬index.Fills payload anchor) :
    (validateLengthIndex payload anchor).run = .ok none := by
  obtain ⟨result, ran, _⟩ := yields_validateLengthIndex payload anchor
  cases result with
  | none => exact ran
  | some start =>
      obtain ⟨index, fills, _⟩ := validate_eq_some ran
      exact absurd fills (without index)

end LengthIndex

end MarketBenchmark.Peering
