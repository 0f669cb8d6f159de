import Mathlib

/-!
# The order of UTF-8 texts

Comparing the UTF-8 bytes of two texts is comparing the texts: the bytes of a
smaller character are smaller at a position that both characters have.
-/

namespace MarketBenchmark.Foundation.Utf8

/-- The UTF-8 bytes of a text. -/
def encode (text : List Char) : List UInt8 := text.flatMap String.utf8EncodeChar

@[simp]
theorem encode_nil : encode [] = [] := rfl

@[simp]
theorem encode_cons (symbol : Char) (rest : List Char) :
    encode (symbol :: rest) = String.utf8EncodeChar symbol ++ encode rest := rfl

theorem ofNat_lt_ofNat {first second : Nat} (less : first < second) (small : second < 256) :
    UInt8.ofNat first < UInt8.ofNat second := by
  rw [UInt8.lt_iff_toNat_lt, UInt8.toNat_ofNat', UInt8.toNat_ofNat']
  omega

section Bytes

variable {first second : Nat} {front back : List UInt8}

/-- Smaller bytes, whatever follows. -/
theorem byte_lt (less : first < second) (small : second < 256) :
    UInt8.ofNat first :: front < UInt8.ofNat second :: back :=
  List.cons_lt_cons_iff.mpr (Or.inl (ofNat_lt_ofNat less small))

/-- The same byte in front of smaller ones. -/
theorem byte_cons_lt (same : first = second) (less : front < back) :
    UInt8.ofNat first :: front < UInt8.ofNat second :: back :=
  List.cons_lt_cons_iff.mpr (Or.inr ⟨congrArg UInt8.ofNat same, less⟩)

end Bytes

/-- The bytes of a smaller character are smaller, whatever follows either. -/
theorem encodeChar_append_lt {first second : Char} (less : first < second)
    (front back : List UInt8) :
    String.utf8EncodeChar first ++ front < String.utf8EncodeChar second ++ back := by
  have below : first.val.toNat < second.val.toNat := less
  have small : second.val.toNat < 0x110000 := by
    rcases second.valid with low | ⟨_, high⟩
    · exact Nat.lt_trans low (by decide)
    · exact high
  unfold String.utf8EncodeChar
  generalize first.val.toNat = value at below
  generalize second.val.toNat = other at below small
  dsimp only
  -- the number of bytes of a character shows in its first byte
  split
  · split
    · exact byte_lt below (by omega)
    · split
      · exact byte_lt (by omega) (by omega)
      · split
        · exact byte_lt (by omega) (by omega)
        · exact byte_lt (by omega) (by omega)
  split
  · rw [if_neg (by omega)]
    split
    · rcases Nat.lt_or_ge (value / 64) (other / 64) with lead | sameLead
      · exact byte_lt (by omega) (by omega)
      · exact byte_cons_lt (by omega) (byte_lt (by omega) (by omega))
    · split
      · exact byte_lt (by omega) (by omega)
      · exact byte_lt (by omega) (by omega)
  split
  · rw [if_neg (by omega), if_neg (by omega)]
    split
    · rcases Nat.lt_or_ge (value / 4096) (other / 4096) with lead | sameLead
      · exact byte_lt (by omega) (by omega)
      rcases Nat.lt_or_ge (value / 64) (other / 64) with middle | sameMiddle
      · exact byte_cons_lt (by omega) (byte_lt (by omega) (by omega))
      · exact byte_cons_lt (by omega) (byte_cons_lt (by omega) (byte_lt (by omega) (by omega)))
    · exact byte_lt (by omega) (by omega)
  · rw [if_neg (by omega), if_neg (by omega), if_neg (by omega)]
    rcases Nat.lt_or_ge (value / 262144) (other / 262144) with lead | sameLead
    · exact byte_lt (by omega) (by omega)
    rcases Nat.lt_or_ge (value / 4096) (other / 4096) with second | sameSecond
    · exact byte_cons_lt (by omega) (byte_lt (by omega) (by omega))
    rcases Nat.lt_or_ge (value / 64) (other / 64) with third | sameThird
    · exact byte_cons_lt (by omega) (byte_cons_lt (by omega) (byte_lt (by omega) (by omega)))
    · exact byte_cons_lt (by omega) (byte_cons_lt (by omega) (byte_cons_lt (by omega)
        (byte_lt (by omega) (by omega))))

theorem encode_lt {first second : List Char} (less : first < second) :
    encode first < encode second := by
  induction first generalizing second with
  | nil =>
      cases second with
      | nil => exact absurd less (List.not_lt_nil _)
      | cons symbol rest =>
          obtain ⟨byte, bytes, same⟩ := List.exists_cons_of_ne_nil
            (String.utf8EncodeChar_ne_nil (c := symbol))
          rw [encode_nil, encode_cons, same]
          exact List.nil_lt_cons _ _
  | cons symbol rest ih =>
      cases second with
      | nil => exact absurd less (List.not_lt_nil _)
      | cons other others =>
          rw [encode_cons, encode_cons]
          rcases List.cons_lt_cons_iff.mp less with smaller | ⟨rfl, later⟩
          · exact encodeChar_append_lt smaller _ _
          · exact List.append_left_lt (ih later)

/-- The byte-wise order of texts is their order. -/
theorem encode_lt_iff {first second : List Char} :
    encode first < encode second ↔ first < second := by
  constructor
  · intro less
    rcases lt_trichotomy first second with smaller | same | larger
    · exact smaller
    · rw [same] at less
      exact absurd less (List.lt_irrefl _)
    · exact absurd less (List.lt_asymm (encode_lt larger))
  · exact encode_lt

theorem encode_le_iff {first second : List Char} :
    encode first ≤ encode second ↔ first ≤ second := by
  rw [← List.not_lt, encode_lt_iff, not_lt]

/-! ## Bytes below 128 -/

/-- A character below 128 is one byte. -/
theorem encodeChar_ofNat : ∀ code < 128,
    String.utf8EncodeChar (Char.ofNat code) = [UInt8.ofNat code] := by
  decide +kernel

/-- Bytes below 128 are a text. -/
theorem isValidUTF8_of_ascii {bytes : List UInt8} (ascii : ∀ byte ∈ bytes, byte.toNat < 128) :
    ByteArray.IsValidUTF8 ⟨bytes.toArray⟩ := by
  induction bytes with
  | nil => exact ByteArray.isValidUTF8_empty
  | cons byte rest ih =>
      obtain ⟨here, later⟩ := List.forall_mem_cons.mp ascii
      have symbol : String.utf8EncodeChar (Char.ofNat byte.toNat) = [byte] := by
        rw [encodeChar_ofNat _ here, UInt8.ofNat_toNat]
      have whole : (⟨(byte :: rest).toArray⟩ : ByteArray) =
          (String.utf8EncodeChar (Char.ofNat byte.toNat)).toByteArray ++ ⟨rest.toArray⟩ := by
        rw [symbol]
        apply ByteArray.ext
        simp
      rw [whole]
      exact Char.isValidUTF8_toByteArray_utf8EncodeChar.append (ih later)

end MarketBenchmark.Foundation.Utf8
