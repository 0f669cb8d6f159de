import MarketBenchmark.Ordering.Safety

/-!
# Reading what was written

The readers of the parser on a payload that holds a given piece at a given
index: each returns what the piece stands for, and the index past it.
-/

namespace MarketBenchmark

open Foundation.Panics
open Foundation.Endian
open Foundation.Streams

variable (payload : Slice)

/-! ## Numbers -/

/-- The forms of a varint that the reader knows. -/
inductive Width where
  | byte
  | u16
  | u32
  | u64
  deriving DecidableEq

/-- Values that a form holds are below this. -/
def Width.bound : Width → Nat
  | .byte => 0xfb
  | .u16 => 256 ^ 2
  | .u32 => 256 ^ 4
  | .u64 => 256 ^ 8

structure Varint where
  width : Width
  value : Nat
  fits : value < width.bound

def Varint.bytes (number : Varint) : List UInt8 :=
  match number.width with
  | .byte => [UInt8.ofNat number.value]
  | .u16 => 0xfb :: toLe 2 number.value
  | .u32 => 0xfc :: toLe 4 number.value
  | .u64 => 0xfd :: toLe 8 number.value

theorem Varint.bytes_ne_nil (number : Varint) : number.bytes ≠ [] := by
  unfold Varint.bytes
  split <;> exact List.cons_ne_nil _ _

theorem readVarint_run {number : Varint} {i : Nat}
    (occurs : OccursAt payload.bytes i number.bytes) :
    (readVarint payload i).run = .ok (some (number.value, i + number.bytes.length)) := by
  have room : i + number.bytes.length ≤ payload.length := occurs.length_le number.bytes_ne_nil
  obtain ⟨width, value, small⟩ := number
  unfold readVarint
  cases width with
  | byte =>
      obtain ⟨tagAt, _⟩ := occursAt_cons.mp occurs
      have fits : i + 1 < usizeBound := payload.lt_usizeBound room
      have tag : (UInt8.ofNat value).toNat = value := by
        have below : value < 0xfb := small
        rw [UInt8.toNat_ofNat']
        omega
      have inline : ∀ marker : UInt8, 0xfb ≤ marker.toNat → UInt8.ofNat value ≠ marker := by
        rintro marker large rfl
        have below : value < 0xfb := small
        omega
      rw [run_bind_of_some (payload.get_run tagAt), if_neg (inline 0xfb (by decide)),
        if_neg (inline 0xfc (by decide)), if_neg (inline 0xfd (by decide)), if_neg,
        run_lift_bind (addUsize_of_lt fits)]
      · exact congrArg (fun read => Except.ok (some (read, i + 1))) tag
      · rintro (wide | reserved)
        · exact inline 0xfe (by decide) wide
        · exact inline 0xff (by decide) reserved
  | u16 =>
      obtain ⟨tagAt, behind⟩ := occursAt_cons.mp occurs
      rw [run_bind_of_some (payload.get_run tagAt), if_pos rfl]
      exact payload.readBehind_run 2 behind (length_toLe 2 value) room (fromLe_toLe small)
  | u32 =>
      obtain ⟨tagAt, behind⟩ := occursAt_cons.mp occurs
      rw [run_bind_of_some (payload.get_run tagAt), if_neg (by decide), if_pos rfl]
      exact payload.readBehind_run 4 behind (length_toLe 4 value) room (fromLe_toLe small)
  | u64 =>
      obtain ⟨tagAt, behind⟩ := occursAt_cons.mp occurs
      have within : i + 9 ≤ payload.length := room
      have first : i + 1 < usizeBound := payload.add_lt (by omega) (by decide)
      have last : i + 9 < usizeBound := payload.lt_usizeBound within
      have part : (payload.cut (i + 1) (i + 9)).bytes = toLe 8 value :=
        payload.cut_of_occursAt behind rfl
      have copied : copyArray 8 (payload.cut (i + 1) (i + 9))
          = .ok ⟨(toLe 8 value).toArray, by rw [List.size_toArray, length_toLe]⟩ :=
        copyArray_of_eq part
      rw [run_bind_of_some (payload.get_run tagAt), if_neg (by decide), if_neg (by decide),
        if_pos rfl, run_lift_bind (addUsize_of_lt first), run_lift_bind (addUsize_of_lt last),
        run_bind_of_some (payload.getRange_run (by omega) within), run_lift_bind copied,
        run_lift_bind (addUsize_of_lt last)]
      exact congrArg (fun read => Except.ok (some (read, i + 9))) (fromLe_toLe small)

/-! ## Hashes -/

/-- Hashes one after the other, as bytes. -/
def hashBytes (txHashes : List Hash32) : List UInt8 := txHashes.flatMap Vector.toList

@[simp]
theorem length_hashBytes (txHashes : List Hash32) :
    (hashBytes txHashes).length = 32 * txHashes.length := by
  induction txHashes with
  | nil => rfl
  | cons hash rest ih =>
      unfold hashBytes at ih ⊢
      rw [List.flatMap_cons, List.length_append, ih, Vector.length_toList, List.length_cons]
      omega

theorem copyHashes_of_occursAt {txHashes : List Hash32} {k : Nat}
    (occurs : OccursAt payload.bytes k (hashBytes txHashes)) :
    copyHashes payload txHashes.length k = .ok txHashes := by
  induction txHashes generalizing k with
  | nil => rfl
  | cons hash rest ih =>
      have room := occurs.length_le (List.ne_nil_of_length_pos (by rw [length_hashBytes]; simp))
      rw [length_hashBytes, List.length_cons] at room
      have within : k + 32 ≤ payload.length := Nat.le_trans (by omega) room
      have fits : k + 32 < usizeBound := payload.lt_usizeBound within
      obtain ⟨here, later⟩ := occursAt_append.mp occurs
      rw [Vector.length_toList] at later
      have copied : copyArray 32 (payload.cut k (k + 32)) = .ok hash :=
        copyArray_of_eq (payload.cut_of_occursAt here (by rw [Vector.length_toList]))
      rw [List.length_cons]
      unfold copyHashes
      rw [bind_of_ok (addUsize_of_lt fits), bind_of_ok (payload.range_of_le (by omega) within),
        bind_of_ok copied, bind_of_ok (addUsize_of_lt fits), bind_of_ok (ih later)]
      rfl

end MarketBenchmark
