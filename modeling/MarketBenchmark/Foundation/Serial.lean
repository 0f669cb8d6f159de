import Mathlib

/-!
# Serial numbers

The positions of an unbounded stream are numbered modulo `2 ^ width`.  Around a
position `base` the serial numbers of one half of the number space lie behind it
and those of the other half lie ahead of it, and the signed difference of two
serial numbers is the true distance of two positions that are close enough.
-/

namespace MarketBenchmark.Foundation.Serial

variable {width : Nat}

/-- Numbers as such are ordered by their values, whatever they stand for. -/
instance instLinearOrderNumber : LinearOrder (BitVec width) :=
  LinearOrder.lift' BitVec.toNat fun _ _ => BitVec.eq_of_toNat_eq

/-- The serial number of a position, when position `0` has the number `zero`. -/
def numberAt (zero : BitVec width) (position : Nat) : BitVec width :=
  zero + BitVec.ofNat width position

/-- The signed distance from the serial number `earlier` to `later`. -/
def distance (later earlier : BitVec width) : Int := (later - earlier).toInt

/-- The first position from `base` on that has the given number. -/
def positionFrom (zero : BitVec width) (base : Nat) (number : BitVec width) : Nat :=
  base + (number - numberAt zero base).toNat

variable {zero : BitVec width}

@[simp]
theorem numberAt_zero : numberAt zero 0 = zero := BitVec.add_zero zero

theorem numberAt_add (position length : Nat) :
    numberAt zero (position + length) = numberAt zero position + BitVec.ofNat width length := by
  unfold numberAt
  rw [BitVec.ofNat_add, BitVec.add_assoc]

theorem numberAt_sub (later earlier : Nat) :
    numberAt zero later - numberAt zero earlier =
      BitVec.ofInt width ((later : Int) - (earlier : Int)) := by
  unfold numberAt
  apply BitVec.eq_of_toInt_eq
  simp only [BitVec.toInt_sub, BitVec.toInt_add, BitVec.toInt_ofNat', BitVec.toInt_ofInt,
    Int.bmod_sub_bmod, Int.sub_bmod_bmod, Int.add_bmod_bmod]
  congr 1
  omega

theorem distance_numberAt (later earlier : Nat) :
    distance (numberAt zero later) (numberAt zero earlier) =
      ((later : Int) - (earlier : Int)).bmod (2 ^ width) := by
  unfold distance
  rw [numberAt_sub, BitVec.toInt_ofInt]

/-- The distance of two numbers is that of their positions when these are close. -/
theorem distance_of_close {half later earlier : Nat} (space : 2 ^ width = 2 * half)
    (behind : earlier ≤ later + half) (ahead : later < earlier + half) :
    distance (numberAt zero later) (numberAt zero earlier) = (later : Int) - (earlier : Int) := by
  rw [distance_numberAt, space]
  apply Int.bmod_eq_of_le
  · omega
  · omega

/-- Half a number space away, a number counts as behind. -/
theorem distance_of_opposite {half later earlier : Nat} (space : 2 ^ width = 2 * half)
    (opposite : later = earlier + half) :
    distance (numberAt zero later) (numberAt zero earlier) = -(half : Int) := by
  have positive := Nat.two_pow_pos width
  rw [distance_numberAt, space, opposite]
  have shifted : ((earlier + half : Nat) : Int) - (earlier : Int) =
      -(half : Int) + ((2 * half : Nat) : Int) := by omega
  rw [shifted, Int.add_bmod_right]
  apply Int.bmod_eq_of_le
  · omega
  · omega

theorem numberAt_inj {first second base : Nat} (firstFrom : base ≤ first)
    (firstBefore : first < base + 2 ^ width) (secondFrom : base ≤ second)
    (secondBefore : second < base + 2 ^ width)
    (same : numberAt zero first = numberAt zero second) : first = second := by
  unfold numberAt at same
  have residues := congrArg BitVec.toNat (add_left_cancel same)
  rw [BitVec.toNat_ofNat, BitVec.toNat_ofNat] at residues
  have congruent : first - base ≡ second - base [MOD 2 ^ width] := by
    refine Nat.ModEq.add_left_cancel' base ?_
    rw [Nat.add_sub_cancel' firstFrom, Nat.add_sub_cancel' secondFrom]
    exact residues
  have equal := Nat.ModEq.eq_of_lt_of_lt congruent (by omega) (by omega)
  omega

/-- A position less than one number space past the base is read back from its number. -/
theorem positionFrom_numberAt {base position : Nat} (reached : base ≤ position)
    (close : position < base + 2 ^ width) :
    positionFrom zero base (numberAt zero position) = position := by
  obtain ⟨length, rfl⟩ := Nat.exists_eq_add_of_le reached
  unfold positionFrom
  rw [numberAt_add, add_sub_cancel_left, BitVec.toNat_ofNat,
    Nat.mod_eq_of_lt (by omega)]

end MarketBenchmark.Foundation.Serial
