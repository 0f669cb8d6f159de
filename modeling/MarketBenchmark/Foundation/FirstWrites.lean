import MarketBenchmark.Foundation.Runs

/-!
# The first write of a slot

A slot of a state is absent, empty or filled.  A slot that keeps its value until
it becomes absent again holds what the first write put there: the first one
since the slot was last absent, however often it was removed before.
-/

namespace MarketBenchmark.Foundation.FirstWrites

open Runs

variable {State Call Value : Type*}

/-- `writes` says what a call offers to a slot, and the slot takes it only while it is open. -/
structure WriteOnce (step : State → Call → Option State) (slot : State → Option (Option Value))
    (writes : State → Call → Option Value) : Prop where
  kept : ∀ {before after : State} {call : Call} {value : Value}, step before call = some after →
    slot before = some (some value) → slot after = none ∨ slot after = some (some value)
  opened : ∀ {before after : State} {call : Call}, step before call = some after →
    (slot before).join = none → slot after = none ∨ slot after = some (writes before call)

section Histories

variable (step : State → Call → Option State) (slot : State → Option (Option Value))
  (writes : State → Call → Option Value) (origin : State)

/-- After `front`, the slot is present in every state along `part`. -/
def PresentAlong (front part : List Call) : Prop :=
  ∀ first state, first <+: part → first ≠ [] → run step origin (front ++ first) = some state →
    slot state ≠ none

/-- After `front`, none of the calls of `part` offers anything to the slot. -/
def QuietAlong (front part : List Call) : Prop :=
  ∀ first call rest state, part = first ++ call :: rest →
    run step origin (front ++ first) = some state → writes state call = none

/-- Nothing was offered to the slot since it was last absent. -/
def Unwritten (calls : List Call) : Prop :=
  ∃ front part state, calls = front ++ part ∧ run step origin front = some state ∧
    slot state = none ∧ PresentAlong step slot origin front part ∧
    QuietAlong step writes origin front part

/-- The call offers the value; it is the first to offer anything since the slot was last absent. -/
def FirstWrite (calls : List Call) (call : Call) (value : Value) : Prop :=
  ∃ front part back state before, calls = front ++ (part ++ call :: back) ∧
    run step origin front = some state ∧ slot state = none ∧
    PresentAlong step slot origin front (part ++ call :: back) ∧
    QuietAlong step writes origin front part ∧
    run step origin (front ++ part) = some before ∧ writes before call = some value

end Histories

variable {step : State → Call → Option State} {slot : State → Option (Option Value)}
  {writes : State → Call → Option Value} {origin before after : State}
  {calls front part : List Call} {call : Call} {value : Value}

theorem PresentAlong.concat (present : PresentAlong step slot origin front part)
    (reached : run step origin (front ++ (part ++ [call])) = some after)
    (now : slot after ≠ none) : PresentAlong step slot origin front (part ++ [call]) := by
  intro first state within nonempty toState
  rcases List.prefix_concat_iff.mp within with whole | earlier
  · rw [whole, reached] at toState
    cases Option.some.inj toState
    exact now
  · exact present first state earlier nonempty toState

theorem QuietAlong.concat (quiet : QuietAlong step writes origin front part)
    (reached : run step origin (front ++ part) = some before)
    (now : writes before call = none) : QuietAlong step writes origin front (part ++ [call]) := by
  intro first other rest state split toState
  rcases concat_eq_append_cons.mp split with ⟨_, same, isCall⟩ | ⟨others, _, same⟩
  · subst same isCall
    cases Option.some.inj (reached.symm.trans toState)
    exact now
  · exact quiet first other others state same toState

/-- A slot that is absent is unwritten. -/
theorem unwritten_of_absent (reached : run step origin calls = some after)
    (absent : slot after = none) : Unwritten step slot writes origin calls := by
  refine ⟨calls, [], after, (List.append_nil calls).symm, reached, absent, ?_, ?_⟩
  · intro first _ within nonempty
    exact absurd (List.prefix_nil.mp within) nonempty
  · intro first _ rest _ split
    cases first <;> cases split

/-- A present slot that no call offers anything to stays unwritten. -/
theorem Unwritten.concat (unwritten : Unwritten step slot writes origin calls)
    (reached : run step origin calls = some before) (stepped : step before call = some after)
    (present : slot after ≠ none) (quiet : writes before call = none) :
    Unwritten step slot writes origin (calls ++ [call]) := by
  obtain ⟨front, part, state, rfl, toState, absent, presentAlong, quietAlong⟩ := unwritten
  have onward := run_concat_of_step reached stepped
  rw [List.append_assoc] at onward
  exact ⟨front, part ++ [call], state, List.append_assoc _ _ _, toState, absent,
    presentAlong.concat onward present, quietAlong.concat reached quiet⟩

/-- The first offer to an unwritten slot. -/
theorem Unwritten.firstWrite (unwritten : Unwritten step slot writes origin calls)
    (reached : run step origin calls = some before) (stepped : step before call = some after)
    (present : slot after ≠ none) (wrote : writes before call = some value) :
    FirstWrite step slot writes origin (calls ++ [call]) call value := by
  obtain ⟨front, part, state, rfl, toState, absent, presentAlong, quietAlong⟩ := unwritten
  have onward := run_concat_of_step reached stepped
  rw [List.append_assoc] at onward
  exact ⟨front, part, [], state, before, List.append_assoc _ _ _, toState, absent,
    presentAlong.concat onward present, quietAlong, reached, wrote⟩

/-- A first write stays the first one while the slot is present. -/
theorem FirstWrite.concat {writer : Call}
    (first : FirstWrite step slot writes origin calls writer value)
    (reached : run step origin calls = some before) (stepped : step before call = some after)
    (present : slot after ≠ none) :
    FirstWrite step slot writes origin (calls ++ [call]) writer value := by
  obtain ⟨front, part, back, state, written, rfl, toState, absent, presentAlong, quiet,
    toWritten, wrote⟩ := first
  have onward := run_concat_of_step reached stepped
  have sameList : front ++ (part ++ writer :: back) ++ [call] =
      front ++ ((part ++ writer :: back) ++ [call]) := List.append_assoc _ _ _
  rw [sameList] at onward
  have along := presentAlong.concat onward present
  rw [List.append_assoc, List.cons_append] at along
  refine ⟨front, part, back ++ [call], state, written, ?_, toState, absent, along, quiet,
    toWritten, wrote⟩
  rw [sameList, List.append_assoc, List.cons_append]

/-- What a slot tells about the calls of a run. -/
theorem WriteOnce.history (once : WriteOnce step slot writes) (absent : slot origin = none)
    {final : State} (executed : run step origin calls = some final) :
    ((slot final).join = none → Unwritten step slot writes origin calls) ∧
      ∀ value, slot final = some (some value) →
        ∃ call, FirstWrite step slot writes origin calls call value := by
  refine run_induction (fun calls (final : State) =>
    ((slot final).join = none → Unwritten step slot writes origin calls) ∧
      ∀ value, slot final = some (some value) →
        ∃ call, FirstWrite step slot writes origin calls call value) ?_ ?_ executed
  · refine ⟨fun _ => unwritten_of_absent rfl absent, fun value filled => ?_⟩
    cases absent.symm.trans filled
  · intro calls before call after reached history stepped
    have onward := run_concat_of_step reached stepped
    cases held : (slot before).join with
    | none =>
        have unwritten := history.1 held
        rcases once.opened stepped held with gone | taken
        · refine ⟨fun _ => unwritten_of_absent onward gone, fun value filled => ?_⟩
          cases gone.symm.trans filled
        · have present : slot after ≠ none := fun gone => nomatch gone.symm.trans taken
          refine ⟨fun empty => ?_, fun value filled => ?_⟩
          · rw [taken, Option.join_some] at empty
            exact unwritten.concat reached stepped present empty
          · have wrote := Option.some.inj (taken.symm.trans filled)
            exact ⟨call, unwritten.firstWrite reached stepped present wrote⟩
    | some held_ =>
        have filledBefore := Option.join_eq_some_iff.mp held
        rcases once.kept stepped filledBefore with gone | kept
        · refine ⟨fun _ => unwritten_of_absent onward gone, fun value filled => ?_⟩
          cases gone.symm.trans filled
        · have present : slot after ≠ none := fun gone => nomatch gone.symm.trans kept
          refine ⟨fun empty => ?_, fun value filled => ?_⟩
          · rw [kept] at empty
            cases empty
          · cases Option.some.inj (Option.some.inj (kept.symm.trans filled))
            obtain ⟨writer, first⟩ := history.2 held_ filledBefore
            exact ⟨writer, first.concat reached stepped present⟩

end MarketBenchmark.Foundation.FirstWrites
