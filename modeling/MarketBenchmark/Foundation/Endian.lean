import Mathlib

/-!
# Numbers as bytes

A number in little-endian or big-endian bytes and back.
-/

namespace MarketBenchmark.Foundation.Endian

/-- The number that the bytes stand for, least significant byte first. -/
def fromLe : List UInt8 → Nat
  | [] => 0
  | byte :: rest => byte.toNat + 256 * fromLe rest

/-- The number that the bytes stand for, most significant byte first. -/
def fromBe (bytes : List UInt8) : Nat := fromLe bytes.reverse

/-- The low bytes of a number, least significant byte first. -/
def toLe : (size : Nat) → Nat → List UInt8
  | 0, _ => []
  | size + 1, value => UInt8.ofNat value :: toLe size (value / 256)

/-- The low bytes of a number, most significant byte first. -/
def toBe (size value : Nat) : List UInt8 := (toLe size value).reverse

@[simp]
theorem length_toLe (size value : Nat) : (toLe size value).length = size := by
  induction size generalizing value with
  | zero => rfl
  | succ size ih => exact congrArg (· + 1) (ih (value / 256))

theorem fromLe_lt (bytes : List UInt8) : fromLe bytes < 256 ^ bytes.length := by
  induction bytes with
  | nil => exact Nat.one_pos
  | cons byte rest ih =>
      have small := byte.toNat_lt
      rw [fromLe, List.length_cons, Nat.pow_succ]
      omega

theorem fromBe_lt (bytes : List UInt8) : fromBe bytes < 256 ^ bytes.length := by
  have small := fromLe_lt bytes.reverse
  rw [List.length_reverse] at small
  exact small

/-- A number that fits is read back. -/
theorem fromLe_toLe {size value : Nat} (fits : value < 256 ^ size) :
    fromLe (toLe size value) = value := by
  induction size generalizing value with
  | zero =>
      rw [Nat.pow_zero, Nat.lt_one_iff] at fits
      exact fits.symm
  | succ size ih =>
      have rest : value / 256 < 256 ^ size := by
        rw [Nat.pow_succ] at fits
        exact Nat.div_lt_of_lt_mul (by rwa [Nat.mul_comm])
      rw [toLe, fromLe, ih rest, UInt8.toNat_ofNat']
      exact Nat.mod_add_div value 256

theorem fromBe_toBe {size value : Nat} (fits : value < 256 ^ size) :
    fromBe (toBe size value) = value := by
  unfold fromBe toBe
  rw [List.reverse_reverse]
  exact fromLe_toLe fits

/-- Bytes are the bytes of the number they stand for. -/
theorem toLe_fromLe (bytes : List UInt8) : toLe bytes.length (fromLe bytes) = bytes := by
  induction bytes with
  | nil => rfl
  | cons byte rest ih =>
      have small := byte.toNat_lt
      have first : UInt8.ofNat (byte.toNat + 256 * fromLe rest) = byte := by
        apply UInt8.toNat_inj.mp
        rw [UInt8.toNat_ofNat']
        omega
      have later : (byte.toNat + 256 * fromLe rest) / 256 = fromLe rest := by omega
      rw [List.length_cons, fromLe, toLe, first, later, ih]

theorem length_toBe (size value : Nat) : (toBe size value).length = size := by
  simp [toBe]

theorem toBe_fromBe (bytes : List UInt8) : toBe bytes.length (fromBe bytes) = bytes := by
  have same := toLe_fromLe bytes.reverse
  rw [List.length_reverse] at same
  unfold toBe fromBe
  rw [same, List.reverse_reverse]

/-- Equally many bytes that stand for the same number are the same bytes. -/
theorem fromBe_inj {first second : List UInt8} (sameLength : first.length = second.length)
    (same : fromBe first = fromBe second) : first = second := by
  have firstBytes := toLe_fromLe first.reverse
  have secondBytes := toLe_fromLe second.reverse
  unfold fromBe at same
  rw [List.length_reverse] at firstBytes secondBytes
  rw [same, sameLength, secondBytes] at firstBytes
  exact (List.reverse_inj.mp firstBytes).symm

end MarketBenchmark.Foundation.Endian
