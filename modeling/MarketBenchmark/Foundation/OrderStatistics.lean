import Mathlib

/-!
# Percentiles by counting

A value is a percentile of a list when the values up to it reach the requested
share and the values below it do not.  The definition counts and does not sort,
so it depends on the multiset alone and determines the value; the nearest rank
of the sorted list meets it.
-/

namespace MarketBenchmark.Foundation.OrderStatistics

variable {Value : Type*} [LinearOrder Value] {values others : List Value} {value other : Value}

/-- The value where the counts of the list reach `percentile` in a hundred. -/
structure IsPercentile (percentile : Nat) (values : List Value) (value : Value) : Prop where
  member : value ∈ values
  reaches : percentile * values.length ≤ 100 * values.countP (· ≤ value)
  below : 100 * values.countP (· < value) < percentile * values.length

namespace IsPercentile

variable {percentile higher : Nat}

/-- Everything up to one value is below every larger one. -/
theorem countP_le_countP_lt (less : value < other) :
    values.countP (· ≤ value) ≤ values.countP (· < other) :=
  List.countP_mono_left fun _ _ le =>
    decide_eq_true (lt_of_le_of_lt (of_decide_eq_true le) less)

/-- A higher percentile is not a smaller value. -/
theorem mono (first : IsPercentile percentile values value)
    (second : IsPercentile higher values other) (le : percentile ≤ higher) : value ≤ other := by
  by_contra notLe
  have less : other < value := lt_of_not_ge notLe
  have counted : values.countP (· ≤ other) ≤ values.countP (· < value) :=
    countP_le_countP_lt less
  have share : percentile * values.length ≤ higher * values.length :=
    Nat.mul_le_mul_right values.length le
  have reached := second.reaches
  have below := first.below
  omega

/-- Only the multiset of the values matters. -/
theorem perm (ofValues : IsPercentile percentile values value) (rearranged : others.Perm values) :
    IsPercentile percentile others value where
  member := rearranged.mem_iff.mpr ofValues.member
  reaches := by
    rw [rearranged.length_eq, rearranged.countP_eq]
    exact ofValues.reaches
  below := by
    rw [rearranged.length_eq, rearranged.countP_eq]
    exact ofValues.below

end IsPercentile

/-! ## Ranks of a sorted list -/

section Sorted

variable {sorted : List Value} {position : Nat}

/-- At most the entries before a position are smaller than its entry. -/
theorem countP_lt_getElem (increasing : sorted.Pairwise (· ≤ ·))
    (inside : position < sorted.length) : sorted.countP (· < sorted[position]) ≤ position := by
  have after : (sorted.drop position).countP (· < sorted[position]) = 0 := by
    refine List.countP_eq_zero.mpr fun entry member => ?_
    obtain ⟨offset, within, same⟩ := List.mem_iff_getElem.mp member
    rw [List.getElem_drop] at same
    rw [List.length_drop] at within
    have le : sorted[position] ≤ sorted[position + offset] :=
      increasing.rel_get_of_le (a := ⟨position, inside⟩) (b := ⟨position + offset, by omega⟩)
        (Nat.le_add_right _ _)
    rw [← same]
    exact fun less => absurd (of_decide_eq_true less) (not_lt_of_ge le)
  calc sorted.countP (· < sorted[position])
      = (sorted.take position ++ sorted.drop position).countP (· < sorted[position]) := by
        rw [List.take_append_drop]
    _ = (sorted.take position).countP (· < sorted[position]) := by
        rw [List.countP_append, after, Nat.add_zero]
    _ ≤ (sorted.take position).length := List.countP_le_length
    _ ≤ position := List.length_take_le _ _

/-- The entries up to a position are at most its entry. -/
theorem lt_countP_le_getElem (increasing : sorted.Pairwise (· ≤ ·))
    (inside : position < sorted.length) : position < sorted.countP (· ≤ sorted[position]) := by
  have before : ∀ entry ∈ sorted.take (position + 1), decide (entry ≤ sorted[position]) = true := by
    intro entry member
    obtain ⟨earlier, within, same⟩ := List.mem_iff_getElem.mp member
    rw [List.getElem_take] at same
    rw [List.length_take] at within
    rw [← same]
    exact decide_eq_true (increasing.rel_get_of_le (a := ⟨earlier, by omega⟩)
      (b := ⟨position, inside⟩) (by change earlier ≤ position; omega))
  have whole : (sorted.take (position + 1)).length = position + 1 :=
    List.length_take_of_le inside
  have within := (List.take_sublist (position + 1) sorted).countP_le
    (p := fun entry => decide (entry ≤ sorted[position]))
  rw [List.countP_eq_length.mpr before, whole] at within
  exact within

/-- The entry at the rank that covers the share is the percentile. -/
theorem isPercentile_getElem {percentile : Nat} (increasing : sorted.Pairwise (· ≤ ·))
    (inside : position < sorted.length)
    (covers : percentile * sorted.length ≤ 100 * (position + 1))
    (least : 100 * position < percentile * sorted.length) :
    IsPercentile percentile sorted sorted[position] where
  member := List.getElem_mem inside
  reaches := covers.trans
    (Nat.mul_le_mul_left 100 (lt_countP_le_getElem increasing inside))
  below := (Nat.mul_le_mul_left 100 (countP_lt_getElem increasing inside)).trans_lt least

end Sorted

end MarketBenchmark.Foundation.OrderStatistics
