import Mathlib

/-!
# The last write of a journal

A variable that some entries of a journal write, and the others leave alone,
has the value that its last writer wrote.
-/

namespace MarketBenchmark.Foundation.Journals

variable {Entry Value : Type*}

/-- The value that the last writing entry wrote. -/
def lastWrite (writes : Entry → Option Value) (journal : List Entry) : Option Value :=
  journal.reverse.findSome? writes

variable {writes : Entry → Option Value}

@[simp]
theorem lastWrite_nil : lastWrite writes [] = none := rfl

@[simp]
theorem lastWrite_concat (journal : List Entry) (entry : Entry) :
    lastWrite writes (journal ++ [entry]) = (writes entry).or (lastWrite writes journal) := by
  unfold lastWrite
  rw [List.reverse_append, List.reverse_singleton, List.singleton_append, List.findSome?_cons]
  cases writes entry <;> rfl

/-- The last writer splits the journal. -/
theorem lastWrite_eq_some_iff {journal : List Entry} {value : Value} :
    lastWrite writes journal = some value ↔
      ∃ early entry late, journal = early ++ entry :: late ∧ writes entry = some value ∧
        ∀ other ∈ late, writes other = none := by
  unfold lastWrite
  rw [List.findSome?_eq_some_iff]
  constructor
  · rintro ⟨front, entry, back, reversed, wrote, silent⟩
    refine ⟨back.reverse, entry, front.reverse, ?_, wrote, ?_⟩
    · rw [← List.reverse_reverse journal, reversed]
      simp
    · exact fun other member => silent other (List.mem_reverse.mp member)
  · rintro ⟨early, entry, late, rfl, wrote, silent⟩
    refine ⟨late.reverse, entry, early.reverse, by simp, wrote, ?_⟩
    exact fun other member => silent other (List.mem_reverse.mp member)

/-- Silent entries at the end do not matter. -/
theorem lastWrite_append_of_silent {early late : List Entry}
    (silent : ∀ entry ∈ late, writes entry = none) :
    lastWrite writes (early ++ late) = lastWrite writes early := by
  unfold lastWrite
  rw [List.reverse_append, List.findSome?_append, List.findSome?_eq_none_iff.mpr, Option.none_or]
  exact fun entry member => silent entry (List.mem_reverse.mp member)

end MarketBenchmark.Foundation.Journals
