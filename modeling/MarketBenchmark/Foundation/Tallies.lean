import Mathlib

/-!
# Tallies

A tally counts, for each key, the entries that meet the key's test.  Where no
entry meets the tests of two keys, the tallies add up to the number of entries
that meet any test: nothing is counted twice.
-/

namespace MarketBenchmark.Foundation.Tallies

variable {Key Entry : Type*} {entries : List Entry}

/-- Two tests that exclude each other are counted apart. -/
theorem countP_or {first second : Entry → Bool}
    (apart : ∀ entry ∈ entries, first entry = true → second entry = false) :
    entries.countP (fun entry => first entry || second entry) =
      entries.countP first + entries.countP second := by
  induction entries with
  | nil => rfl
  | cons entry rest ih =>
      have ofRest := ih fun other member => apart other (List.mem_cons_of_mem entry member)
      have here := apart entry List.mem_cons_self
      simp only [List.countP_cons]
      rw [ofRest]
      cases holds : first entry with
      | true =>
          rw [here holds]
          simp only [Bool.or_false, Bool.false_eq_true, if_true, if_false]
          omega
      | false => simp [Nat.add_assoc]

/-- The tallies of keys whose tests exclude each other add up. -/
theorem sum_countP {test : Key → Entry → Bool} {keys : List Key} (distinct : keys.Nodup)
    (exclusive : ∀ entry ∈ entries, ∀ first ∈ keys, ∀ second ∈ keys,
      test first entry = true → test second entry = true → first = second) :
    (keys.map fun key => entries.countP (test key)).sum =
      entries.countP fun entry => keys.any (test · entry) := by
  induction keys with
  | nil => simp
  | cons key others ih =>
      obtain ⟨fresh, restDistinct⟩ := List.nodup_cons.mp distinct
      have ofOthers := ih restDistinct fun entry member first isFirst second isSecond =>
        exclusive entry member first (List.mem_cons_of_mem key isFirst) second
          (List.mem_cons_of_mem key isSecond)
      have apart : ∀ entry ∈ entries, test key entry = true →
          others.any (test · entry) = false := by
        intro entry member holds
        refine List.any_eq_false.mpr fun other isOther meets => fresh ?_
        have same := exclusive entry member key List.mem_cons_self other
          (List.mem_cons_of_mem key isOther) holds meets
        rw [same]
        exact isOther
      rw [List.map_cons, List.sum_cons, ofOthers]
      simp only [List.any_cons]
      exact (countP_or apart).symm

end MarketBenchmark.Foundation.Tallies
