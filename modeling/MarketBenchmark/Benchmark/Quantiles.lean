import MarketBenchmark.Benchmark.Publication
import MarketBenchmark.Foundation.OrderStatistics

/-!
# Nearest-rank quantiles

`nearest_rank` takes the entry at `ceil(p * N / 100)` of the sorted latencies,
counted from one.  That rank always exists, and its entry is the percentile in
the counting sense, whatever order the latencies came in.
-/

namespace MarketBenchmark

open Foundation.OrderStatistics

section Rank

variable {size percentile : Nat}

/-- The one-based rank of a percentile among `size` sorted values. -/
def percentileRank (size percentile : Nat) : Nat := max ((percentile * size + 99) / 100) 1

theorem nearestRank_eq (sorted : List Nat) (percentile : Nat) :
    nearestRank sorted percentile = sorted[percentileRank sorted.length percentile - 1]? := rfl

theorem one_le_percentileRank : 1 ≤ percentileRank size percentile := Nat.le_max_right _ _

/-- The clamp is idle: the ceiling is positive where both factors are. -/
theorem percentileRank_of_pos (positive : 1 ≤ percentile) (inhabited : 0 < size) :
    percentileRank size percentile = (percentile * size + 99) / 100 := by
  have product : 0 < percentile * size := Nat.mul_pos positive inhabited
  exact Nat.max_eq_left (by omega)

theorem percentileRank_le (positive : 1 ≤ percentile) (percent : percentile ≤ 100)
    (inhabited : 0 < size) : percentileRank size percentile ≤ size := by
  rw [percentileRank_of_pos positive inhabited]
  have product : percentile * size ≤ 100 * size := Nat.mul_le_mul_right size percent
  omega

/-- The rank covers the share. -/
theorem le_percentileRank : percentile * size ≤ 100 * percentileRank size percentile := by
  have ceiling : (percentile * size + 99) / 100 ≤ percentileRank size percentile :=
    Nat.le_max_left _ _
  omega

/-- No smaller rank covers it. -/
theorem percentileRank_least (positive : 1 ≤ percentile) (inhabited : 0 < size) :
    100 * (percentileRank size percentile - 1) < percentile * size := by
  have product : 0 < percentile * size := Nat.mul_pos positive inhabited
  rw [percentileRank_of_pos positive inhabited]
  omega

end Rank

/-! ## The reported value -/

section Sorted

variable {values others : List Nat} {percentile : Nat}

theorem mergeSort_increasing (values : List Nat) : values.mergeSort.Pairwise (· ≤ ·) :=
  List.pairwise_mergeSort' (· ≤ ·) values

/-- Two arrangements of the same values are sorted alike. -/
theorem mergeSort_eq_of_perm (rearranged : others.Perm values) :
    others.mergeSort = values.mergeSort := by
  refine List.Perm.eq_of_pairwise' (mergeSort_increasing others) (mergeSort_increasing values) ?_
  exact (List.mergeSort_perm others _).trans
    (rearranged.trans (List.mergeSort_perm values _).symm)

/-- The rank is inside the list, and its entry is the percentile. -/
theorem nearestRank_mergeSort (nonempty : values ≠ []) (positive : 1 ≤ percentile)
    (percent : percentile ≤ 100) :
    ∃ value, nearestRank values.mergeSort percentile = some value ∧
      IsPercentile percentile values value := by
  have inhabited : 0 < values.mergeSort.length := by
    rw [List.length_mergeSort]
    exact List.length_pos_iff.mpr nonempty
  have bounded := percentileRank_le positive percent inhabited
  have counted : 1 ≤ percentileRank values.mergeSort.length percentile := one_le_percentileRank
  have inside : percentileRank values.mergeSort.length percentile - 1 <
      values.mergeSort.length := by omega
  have sortedPercentile := isPercentile_getElem (mergeSort_increasing values) inside
    (by rw [Nat.sub_add_cancel counted]; exact le_percentileRank)
    (percentileRank_least positive inhabited)
  refine ⟨_, ?_, sortedPercentile.perm (List.mergeSort_perm values _).symm⟩
  rw [nearestRank_eq, List.getElem?_eq_getElem inside]

/-- The first and the last entry of the sorted values bound all of them. -/
theorem mergeSort_ends (nonempty : values ≠ []) :
    ∃ least greatest, values.mergeSort.head? = some least ∧
      values.mergeSort.getLast? = some greatest ∧ least ∈ values ∧ greatest ∈ values ∧
      ∀ value ∈ values, least ≤ value ∧ value ≤ greatest := by
  have inhabited : values.mergeSort ≠ [] := by
    intro empty
    have sizes : values.mergeSort.length = values.length := List.length_mergeSort values
    rw [empty] at sizes
    exact nonempty (List.length_eq_zero_iff.mp sizes.symm)
  refine ⟨values.mergeSort.head inhabited, values.mergeSort.getLast inhabited,
    List.head?_eq_some_head inhabited, List.getLast?_eq_some_getLast inhabited,
    List.mem_mergeSort.mp (List.head_mem inhabited),
    List.mem_mergeSort.mp (List.getLast_mem inhabited), fun value member => ?_⟩
  have isSorted : value ∈ values.mergeSort := List.mem_mergeSort.mpr member
  have increasing := mergeSort_increasing values
  exact ⟨increasing.rel_head isSorted, increasing.rel_getLast isSorted⟩

/-- What `distribution` reports of some latencies is exact. -/
structure ExactQuantiles (values : List Nat) (summary : Distribution) : Prop where
  /-- Every percentile has a rank inside the list; its entry has the counting property. -/
  ranked : ∀ percentile, 1 ≤ percentile → percentile ≤ 100 →
    ∃ value, nearestRank values.mergeSort percentile = some value ∧ value ∈ values ∧
      percentile * values.length ≤ 100 * values.countP (· ≤ value) ∧
      100 * values.countP (· < value) < percentile * values.length
  /-- Another order of the same latencies is reported alike. -/
  arranged : ∀ others : List Nat, others.Perm values →
    distribution others = some summary ∧
    ∀ percentile, nearestRank others.mergeSort percentile =
      nearestRank values.mergeSort percentile
  p50 : nearestRank values.mergeSort 50 = some summary.p50
  p95 : nearestRank values.mergeSort 95 = some summary.p95
  p99 : nearestRank values.mergeSort 99 = some summary.p99
  bounds : summary.least ∈ values ∧ summary.greatest ∈ values ∧
    ∀ value ∈ values, summary.least ≤ value ∧ value ≤ summary.greatest
  ordered : summary.least ≤ summary.p50 ∧ summary.p50 ≤ summary.p95 ∧
    summary.p95 ≤ summary.p99 ∧ summary.p99 ≤ summary.greatest

theorem distribution_of_ends {p50 p95 p99 least greatest : Nat}
    (first : nearestRank values.mergeSort 50 = some p50)
    (second : nearestRank values.mergeSort 95 = some p95)
    (third : nearestRank values.mergeSort 99 = some p99)
    (head : values.mergeSort.head? = some least)
    (last : values.mergeSort.getLast? = some greatest) :
    distribution values = some { p50, p95, p99, least, greatest } := by
  unfold distribution
  dsimp only
  rw [first, second, third, head, last]

/--
Whatever non-empty list of latencies `distribution` summarises, its nearest
ranks are the percentiles by counting, and they lie in order between the least
and the greatest latency.
-/
theorem nearest_rank_exact (values : List Nat) (nonempty : values ≠ []) :
    ∃ summary, distribution values = some summary ∧ ExactQuantiles values summary := by
  have ranked : ∀ percentile, 1 ≤ percentile → percentile ≤ 100 →
      ∃ value, nearestRank values.mergeSort percentile = some value ∧
        IsPercentile percentile values value :=
    fun _ => nearestRank_mergeSort nonempty
  obtain ⟨p50, first, atHalf⟩ := ranked 50 (by decide) (by decide)
  obtain ⟨p95, second, atTail⟩ := ranked 95 (by decide) (by decide)
  obtain ⟨p99, third, atEnd⟩ := ranked 99 (by decide) (by decide)
  obtain ⟨least, greatest, head, last, isLeast, isGreatest, bounds⟩ := mergeSort_ends nonempty
  have summarised := distribution_of_ends first second third head last
  refine ⟨_, summarised, ?_, ?_, first, second, third, ⟨isLeast, isGreatest, bounds⟩, ?_⟩
  · intro percentile positive percent
    obtain ⟨value, atRank, isPercentile⟩ := ranked percentile positive percent
    exact ⟨value, atRank, isPercentile.member, isPercentile.reaches, isPercentile.below⟩
  · intro others rearranged
    have sameSorted := mergeSort_eq_of_perm rearranged
    refine ⟨?_, fun percentile => by rw [sameSorted]⟩
    unfold distribution at summarised ⊢
    rw [sameSorted]
    exact summarised
  · exact ⟨(bounds p50 atHalf.member).1, atHalf.mono atTail (by decide),
      atTail.mono atEnd (by decide), (bounds p99 atEnd.member).2⟩

/-- Two of four latencies are level. -/
theorem nearest_rank_exact_of_four :
    ∃ summary, distribution [12, 7, 31, 12] = some summary ∧
      ExactQuantiles [12, 7, 31, 12] summary :=
  nearest_rank_exact [12, 7, 31, 12] (List.cons_ne_nil _ _)

end Sorted

end MarketBenchmark
