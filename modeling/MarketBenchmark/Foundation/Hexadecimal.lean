import Mathlib

/-!
# Bytes in hexadecimal

Bytes as their half bytes, most significant first, and as the lower-case digits
of these.  Different bytes have different digits, and every even number of
digits belongs to some bytes.
-/

namespace MarketBenchmark.Foundation.Hexadecimal

/-- The two halves of every byte. -/
def nibbles : List UInt8 → List Nat
  | [] => []
  | byte :: rest => byte.toNat / 16 :: byte.toNat % 16 :: nibbles rest

/-- The lower-case digits of the bytes. -/
def digits (bytes : List UInt8) : List Char := (nibbles bytes).map Nat.digitChar

theorem length_nibbles (bytes : List UInt8) : (nibbles bytes).length = 2 * bytes.length := by
  induction bytes with
  | nil => rfl
  | cons byte rest ih =>
      rw [nibbles, List.length_cons, List.length_cons, List.length_cons, ih]
      omega

theorem length_digits (bytes : List UInt8) : (digits bytes).length = 2 * bytes.length := by
  rw [digits, List.length_map, length_nibbles]

theorem nibbles_lt {bytes : List UInt8} : ∀ nibble ∈ nibbles bytes, nibble < 16 := by
  induction bytes with
  | nil => exact nofun
  | cons byte rest ih =>
      have small := byte.toNat_lt
      refine List.forall_mem_cons.mpr ⟨by omega, List.forall_mem_cons.mpr ⟨by omega, ih⟩⟩

theorem nibbles_injective : Function.Injective nibbles := by
  intro first second same
  induction first generalizing second with
  | nil =>
      cases second with
      | nil => rfl
      | cons byte rest => cases same
  | cons byte rest ih =>
      cases second with
      | nil => cases same
      | cons other others =>
          obtain ⟨high, tails⟩ := List.cons.inj same
          obtain ⟨low, later⟩ := List.cons.inj tails
          have sameByte : byte = other := UInt8.toNat_inj.mp (by omega)
          rw [sameByte, ih later]

theorem digitChar_inj : ∀ first < 16, ∀ second < 16,
    Nat.digitChar first = Nat.digitChar second → first = second := by decide

/-- Different half bytes have different digits. -/
theorem map_digitChar_inj {first second : List Nat} (firstSmall : ∀ nibble ∈ first, nibble < 16)
    (secondSmall : ∀ nibble ∈ second, nibble < 16)
    (same : first.map Nat.digitChar = second.map Nat.digitChar) : first = second := by
  induction first generalizing second with
  | nil => exact (List.map_eq_nil_iff.mp same.symm).symm
  | cons nibble rest ih =>
      cases second with
      | nil => cases same
      | cons other others =>
          obtain ⟨here, later⟩ := List.cons.inj same
          obtain ⟨nibbleSmall, restSmall⟩ := List.forall_mem_cons.mp firstSmall
          obtain ⟨otherSmall, othersSmall⟩ := List.forall_mem_cons.mp secondSmall
          rw [digitChar_inj nibble nibbleSmall other otherSmall here,
            ih restSmall othersSmall later]

theorem digits_injective : Function.Injective digits := fun _ _ same =>
  nibbles_injective (map_digitChar_inj nibbles_lt nibbles_lt same)

/-- Two half bytes make one byte. -/
theorem nibbles_ofFn (count : Nat) {halves : List Nat} (length : halves.length = 2 * count)
    (small : ∀ nibble ∈ halves, nibble < 16) :
    nibbles (List.ofFn fun index : Fin count =>
      UInt8.ofNat (16 * halves.getD (2 * index) 0 + halves.getD (2 * index + 1) 0)) = halves := by
  induction count generalizing halves with
  | zero => exact (List.length_eq_zero_iff.mp length).symm
  | succ count ih =>
      match halves, length with
      | high :: low :: rest, length =>
          obtain ⟨highSmall, lowAndRest⟩ := List.forall_mem_cons.mp small
          obtain ⟨lowSmall, restSmall⟩ := List.forall_mem_cons.mp lowAndRest
          have restLength : rest.length = 2 * count := by
            simp only [List.length_cons] at length
            omega
          have byte : (UInt8.ofNat (16 * high + low)).toNat = 16 * high + low := by
            rw [UInt8.toNat_ofNat']
            exact Nat.mod_eq_of_lt (by omega)
          have later := ih restLength restSmall
          rw [List.ofFn_succ, nibbles]
          refine congrArg₂ List.cons ?_ (congrArg₂ List.cons ?_ later)
          · exact (congrArg (· / 16) byte).trans (by omega)
          · exact (congrArg (· % 16) byte).trans (by omega)

end MarketBenchmark.Foundation.Hexadecimal
