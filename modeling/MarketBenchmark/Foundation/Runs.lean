import Mathlib

/-!
# Runs of a partial step function

A program that is driven by a sequence of calls is given by a step function
that may fail.  A run is the left-to-right execution of a call list.  The
rules below are the only inductions over calls used by the developments that
instantiate it: an invariant is shown for the first state and for one step.
-/

namespace MarketBenchmark.Foundation.Runs

variable {State : Type*} {Call : Type*}

/-- Execute the calls from left to right; a failing call ends the run. -/
def run (step : State → Call → Option State) : State → List Call → Option State
  | state, [] => some state
  | state, call :: rest => (step state call).bind fun next => run step next rest

variable {step : State → Call → Option State}

@[simp]
theorem run_nil (state : State) : run step state [] = some state := rfl

@[simp]
theorem run_cons (state : State) (call : Call) (rest : List Call) :
    run step state (call :: rest) =
      (step state call).bind fun next => run step next rest := rfl

theorem run_singleton (state : State) (call : Call) :
    run step state [call] = step state call := by
  rw [run_cons]
  cases step state call <;> rfl

theorem run_append (state : State) (first second : List Call) :
    run step state (first ++ second) =
      (run step state first).bind fun middle => run step middle second := by
  induction first generalizing state with
  | nil => rfl
  | cons call rest ih =>
      rw [List.cons_append, run_cons, run_cons, Option.bind_assoc]
      congr 1
      funext next
      exact ih next

/-- A run of a concatenation passes through the end of its first part. -/
theorem run_append_eq_some {state final : State} {first second : List Call}
    (executed : run step state (first ++ second) = some final) :
    ∃ middle, run step state first = some middle ∧
      run step middle second = some final := by
  rw [run_append] at executed
  exact Option.bind_eq_some_iff.mp executed

theorem run_concat (state : State) (calls : List Call) (call : Call) :
    run step state (calls ++ [call]) =
      (run step state calls).bind fun before => step before call := by
  rw [run_append]
  congr 1
  funext before
  exact run_singleton before call

/-- A run extends by a call that its last state can make. -/
theorem run_concat_of_step {state before final : State} {calls : List Call} {call : Call}
    (reached : run step state calls = some before) (stepped : step before call = some final) :
    run step state (calls ++ [call]) = some final := by
  rw [run_concat, reached]
  exact stepped

/-- A call of an extended list is its last call or lies before it. -/
theorem concat_eq_append_cons {Item : Type*} {items front back : List Item} {last one : Item} :
    items ++ [last] = front ++ one :: back ↔
      (back = [] ∧ front = items ∧ one = last) ∨
        ∃ rest, back = rest ++ [last] ∧ items = front ++ one :: rest := by
  rcases List.eq_nil_or_concat back with empty | ⟨rest, final, concat⟩
  · subst empty
    rw [List.append_singleton_inj]
    constructor
    · rintro ⟨same, sameLast⟩
      exact Or.inl ⟨rfl, same.symm, sameLast.symm⟩
    · rintro (⟨_, same, sameLast⟩ | ⟨rest, empty, _⟩)
      · exact ⟨same.symm, sameLast.symm⟩
      · exact absurd empty.symm (List.append_ne_nil_of_right_ne_nil rest (List.cons_ne_nil last []))
  · subst concat
    rw [List.concat_eq_append, ← List.cons_append, ← List.append_assoc,
      List.append_singleton_inj]
    constructor
    · rintro ⟨same, sameLast⟩
      exact Or.inr ⟨rest, by rw [sameLast], same⟩
    · rintro (⟨empty, _, _⟩ | ⟨other, sameBack, same⟩)
      · exact absurd empty (List.append_ne_nil_of_right_ne_nil rest (List.cons_ne_nil final []))
      · obtain ⟨sameRest, sameLast⟩ := List.append_singleton_inj.mp sameBack
        exact ⟨by rw [same, sameRest], sameLast.symm⟩

/-- Items are told apart by a label exactly when none has the label of an earlier one. -/
theorem nodup_map_iff_splits {Item Label : Type*} (label : Item → Label) (items : List Item) :
    (items.map label).Nodup ↔ ∀ earlier current later, items = earlier ++ current :: later →
      label current ∉ earlier.map label := by
  induction items using List.reverseRecOn with
  | nil => exact iff_of_true List.nodup_nil fun earlier current later split =>
      absurd split.symm (List.append_ne_nil_of_right_ne_nil earlier (List.cons_ne_nil _ _))
  | append_singleton front last ih =>
      rw [List.map_append, List.map_singleton, ← List.concat_eq_append, List.nodup_concat, ih]
      constructor
      · rintro ⟨new, distinct⟩ earlier current later split
        rcases concat_eq_append_cons.mp split with ⟨_, rfl, rfl⟩ | ⟨rest, _, inFront⟩
        · exact new
        · exact distinct earlier current rest inFront
      · intro distinct
        refine ⟨distinct front last [] rfl, fun earlier current rest inFront => ?_⟩
        exact distinct earlier current (rest ++ [last])
          (concat_eq_append_cons.mpr (Or.inr ⟨rest, rfl, inFront⟩))

/-- The last call of a run steps from the state its predecessors reach. -/
theorem run_concat_eq_some {state final : State} {calls : List Call} {call : Call}
    (executed : run step state (calls ++ [call]) = some final) :
    ∃ before, run step state calls = some before ∧ step before call = some final := by
  rw [run_concat] at executed
  exact Option.bind_eq_some_iff.mp executed

/--
Run induction.  A property of the executed calls and the reached state holds of
every run when it holds initially and each executed call preserves it.
-/
theorem run_induction {origin : State} (Holds : List Call → State → Prop)
    (init : Holds [] origin)
    (next : ∀ calls before call after, run step origin calls = some before →
      Holds calls before → step before call = some after →
      Holds (calls ++ [call]) after) :
    ∀ {calls : List Call} {final : State},
      run step origin calls = some final → Holds calls final := by
  intro calls
  induction calls using List.reverseRecOn with
  | nil =>
      intro final executed
      cases executed
      exact init
  | append_singleton calls call ih =>
      intro final executed
      obtain ⟨before, reached, stepped⟩ := run_concat_eq_some executed
      exact next calls before call final reached (ih reached) stepped

/-- A step function that never fails runs every list of calls. -/
theorem exists_run (step : State → Call → Option State)
    (total : ∀ state call, ∃ next, step state call = some next) (origin : State)
    (calls : List Call) : ∃ final, run step origin calls = some final := by
  induction calls generalizing origin with
  | nil => exact ⟨origin, rfl⟩
  | cons call rest ih =>
      obtain ⟨next, stepped⟩ := total origin call
      rw [run_cons, stepped]
      exact ih next

/-- An invariant that every step preserves is preserved by every run. -/
theorem run_preserves (Holds : State → Prop)
    (next : ∀ before call after, Holds before → step before call = some after →
      Holds after)
    {calls : List Call} {origin final : State}
    (init : Holds origin) (executed : run step origin calls = some final) :
    Holds final :=
  run_induction (fun _ state => Holds state) init
    (fun _ before call after _ held stepped => next before call after held stepped)
    executed

/-- Steps that agree in the states of an invariant have the same runs. -/
theorem run_congr {step other : State → Call → Option State} (Holds : State → Prop)
    (next : ∀ before call after, Holds before → step before call = some after → Holds after)
    (agree : ∀ state call, Holds state → other state call = step state call) {origin : State}
    (init : Holds origin) (calls : List Call) : run other origin calls = run step origin calls := by
  induction calls generalizing origin with
  | nil => rfl
  | cons call rest ih =>
      rw [run_cons, run_cons, agree origin call init]
      cases stepped : step origin call with
      | none => rfl
      | some middle => exact ih (next origin call middle init stepped)

/-- A reflexive and transitive relation that every step respects relates the
ends of every run. -/
theorem run_related (Related : State → State → Prop)
    (refl : ∀ state, Related state state)
    (trans : ∀ first second third, Related first second → Related second third →
      Related first third)
    (next : ∀ before call after, step before call = some after →
      Related before after)
    {calls : List Call} {origin final : State}
    (executed : run step origin calls = some final) : Related origin final :=
  run_preserves (Related origin)
    (fun before call after held stepped =>
      trans origin before after held (next before call after stepped))
    (refl origin) executed

/-! ## Calls that stand for several calls -/

/-- A run of calls that each expand to a list of calls is the run of all of them. -/
theorem run_flatMap {Macro : Type*} (expand : Macro → List Call) (state : State)
    (macros : List Macro) :
    run (fun state one => run step state (expand one)) state macros =
      run step state (macros.flatMap expand) := by
  induction macros generalizing state with
  | nil => rfl
  | cons one rest ih =>
      rw [run_cons, List.flatMap_cons, run_append]
      congr 1
      funext next
      exact ih next

/-! ## What the steps of a run emit -/

section Emissions

variable {Output : Type*} (emit : State → Call → List Output)

/-- The outputs of the steps of a run, in their order. -/
def emissions (step : State → Call → Option State) (emit : State → Call → List Output) :
    State → List Call → List Output
  | _, [] => []
  | state, call :: rest =>
      emit state call ++
        match step state call with
        | none => []
        | some next => emissions step emit next rest

@[simp]
theorem emissions_nil (state : State) : emissions step emit state [] = [] := rfl

theorem emissions_cons {state next : State} {call : Call} (rest : List Call)
    (stepped : step state call = some next) :
    emissions step emit state (call :: rest) =
      emit state call ++ emissions step emit next rest := by
  rw [emissions, stepped]

theorem emissions_singleton (state : State) (call : Call) :
    emissions step emit state [call] = emit state call := by
  rw [emissions]
  cases step state call <;> exact List.append_nil _

theorem emissions_concat {origin before : State} {calls : List Call} (call : Call)
    (reached : run step origin calls = some before) :
    emissions step emit origin (calls ++ [call]) =
      emissions step emit origin calls ++ emit before call := by
  induction calls generalizing origin with
  | nil =>
      cases reached
      exact emissions_singleton emit before call
  | cons first rest ih =>
      rw [run_cons] at reached
      obtain ⟨middle, stepped, reached⟩ := Option.bind_eq_some_iff.mp reached
      rw [List.cons_append, emissions_cons emit _ stepped, emissions_cons emit _ stepped,
        List.append_assoc, ih reached]

theorem emissions_append {origin middle : State} {first : List Call} (second : List Call)
    (reached : run step origin first = some middle) :
    emissions step emit origin (first ++ second) =
      emissions step emit origin first ++ emissions step emit middle second := by
  induction first generalizing origin with
  | nil =>
      cases reached
      rfl
  | cons call rest ih =>
      rw [run_cons] at reached
      obtain ⟨next, stepped, reached⟩ := Option.bind_eq_some_iff.mp reached
      rw [List.cons_append, emissions_cons emit _ stepped, emissions_cons emit _ stepped,
        List.append_assoc, ih reached]

theorem emissions_eq_nil {calls : List Call} (silent : ∀ call ∈ calls, ∀ state, emit state call = [])
    (origin : State) : emissions step emit origin calls = [] := by
  induction calls generalizing origin with
  | nil => rfl
  | cons call rest ih =>
      obtain ⟨here, later⟩ := List.forall_mem_cons.mp silent
      rw [emissions, here, List.nil_append]
      split
      · rfl
      · exact ih later _

/-- Outputs are counted against a budget: each one that passes the test is paid by what the state
owes less, or by what the call grants. -/
theorem countP_emissions_le (test : Output → Bool) (owed : State → Nat) (grant : Call → Nat)
    (next : ∀ before call after, step before call = some after →
      (emit before call).countP test + owed after ≤ owed before + grant call)
    {calls : List Call} {origin final : State}
    (executed : run step origin calls = some final) :
    (emissions step emit origin calls).countP test + owed final ≤
      owed origin + (calls.map grant).sum := by
  induction calls generalizing origin with
  | nil =>
      cases executed
      exact Nat.le_of_eq (Nat.zero_add _)
  | cons call rest ih =>
      rw [run_cons] at executed
      obtain ⟨middle, stepped, executed⟩ := Option.bind_eq_some_iff.mp executed
      have here := next origin call middle stepped
      have later := ih executed
      rw [emissions_cons emit rest stepped, List.countP_append, List.map_cons, List.sum_cons]
      omega

end Emissions

/-- Counting what the calls bring call by call is counting it at once. -/
theorem sum_countP_filterMap {Item : Type*} (brought : Call → Option Item) (test : Item → Bool)
    (calls : List Call) :
    (calls.map fun call => ([call].filterMap brought).countP test).sum =
      (calls.filterMap brought).countP test := by
  induction calls with
  | nil => rfl
  | cons call rest ih =>
      rw [List.map_cons, List.sum_cons, ih, ← List.countP_append, ← List.filterMap_append,
        List.singleton_append]

/-! ## Runs whose steps all meet a condition -/

/-- Every call of the run is made in a state that meets the condition. -/
def StepsMeet (step : State → Call → Option State)
    (Condition : State → Call → Prop) : State → List Call → Prop
  | _, [] => True
  | state, call :: rest => Condition state call ∧
      ∀ next, step state call = some next → StepsMeet step Condition next rest

theorem stepsMeet_cons_of_step {Condition : State → Call → Prop} {state next : State}
    {call : Call} (rest : List Call) (stepped : step state call = some next) :
    StepsMeet step Condition state (call :: rest) ↔
      Condition state call ∧ StepsMeet step Condition next rest := by
  refine and_congr_right fun _ => ⟨fun later => later next stepped, fun met other into => ?_⟩
  cases Option.some.inj (stepped.symm.trans into)
  exact met

instance StepsMeet.decidable {Condition : State → Call → Prop}
    [∀ state call, Decidable (Condition state call)] :
    ∀ (state : State) (calls : List Call), Decidable (StepsMeet step Condition state calls)
  | _, [] => isTrue trivial
  | state, call :: rest =>
      match stepped : step state call with
      | none => decidable_of_iff (Condition state call)
          ⟨fun here => ⟨here, fun next into => by rw [stepped] at into; cases into⟩, And.left⟩
      | some next =>
          have : Decidable (StepsMeet step Condition next rest) := StepsMeet.decidable next rest
          decidable_of_iff _ (stepsMeet_cons_of_step rest stepped).symm

theorem stepsMeet_append {Condition : State → Call → Prop} {state middle : State}
    {first second : List Call}
    (met : StepsMeet step Condition state (first ++ second))
    (executed : run step state first = some middle) :
    StepsMeet step Condition state first ∧ StepsMeet step Condition middle second := by
  induction first generalizing state with
  | nil =>
      cases executed
      exact ⟨trivial, met⟩
  | cons call rest ih =>
      obtain ⟨here, later⟩ := met
      rw [run_cons] at executed
      obtain ⟨next, stepped, executed⟩ := Option.bind_eq_some_iff.mp executed
      obtain ⟨restMet, secondMet⟩ := ih (later next stepped) executed
      refine ⟨⟨here, ?_⟩, secondMet⟩
      intro other otherStepped
      cases Option.some.inj (stepped.symm.trans otherStepped)
      exact restMet

/-- Two runs whose steps all meet the condition make one. -/
theorem stepsMeet_append_of {Condition : State → Call → Prop} {state : State}
    {first second : List Call} (met : StepsMeet step Condition state first)
    (after : ∀ middle, run step state first = some middle →
      StepsMeet step Condition middle second) :
    StepsMeet step Condition state (first ++ second) := by
  induction first generalizing state with
  | nil => exact after state rfl
  | cons call rest ih =>
      obtain ⟨here, later⟩ := met
      refine ⟨here, fun next stepped => ih (later next stepped) fun middle reached => ?_⟩
      refine after middle ?_
      rw [run_cons, stepped]
      exact reached

/-- A run whose steps all meet the condition extends by one more such step. -/
theorem stepsMeet_concat {Condition : State → Call → Prop} {origin before : State}
    {calls : List Call} {call : Call} (met : StepsMeet step Condition origin calls)
    (reached : run step origin calls = some before) (here : Condition before call) :
    StepsMeet step Condition origin (calls ++ [call]) := by
  induction calls generalizing origin with
  | nil =>
      cases reached
      exact ⟨here, fun _ _ => trivial⟩
  | cons first rest ih =>
      obtain ⟨firstMet, later⟩ := met
      rw [run_cons] at reached
      obtain ⟨middle, stepped, reached⟩ := Option.bind_eq_some_iff.mp reached
      refine ⟨firstMet, fun next nextStepped => ?_⟩
      cases Option.some.inj (stepped.symm.trans nextStepped)
      exact ih (later middle stepped) reached

/-- A relation that every condition-meeting step respects relates the ends of
every run whose steps all meet the condition. -/
theorem run_related_of_stepsMeet {Condition : State → Call → Prop}
    (Related : State → State → Prop)
    (refl : ∀ state, Related state state)
    (trans : ∀ first second third, Related first second → Related second third →
      Related first third)
    (next : ∀ before call after, Condition before call →
      step before call = some after → Related before after)
    {calls : List Call} {origin final : State}
    (met : StepsMeet step Condition origin calls)
    (executed : run step origin calls = some final) : Related origin final := by
  induction calls generalizing origin with
  | nil =>
      cases executed
      exact refl _
  | cons call rest ih =>
      obtain ⟨here, later⟩ := met
      rw [run_cons] at executed
      obtain ⟨middle, stepped, executed⟩ := Option.bind_eq_some_iff.mp executed
      exact trans _ middle final (next _ call middle here stepped)
        (ih (later middle stepped) executed)

/-- Conditions that agree in the states of an invariant are met by the same runs. -/
theorem stepsMeet_congr {First Second : State → Call → Prop} (Holds : State → Prop)
    (next : ∀ before call after, Holds before → step before call = some after → Holds after)
    (agree : ∀ state call, Holds state → (First state call ↔ Second state call))
    {origin : State} (init : Holds origin) (calls : List Call) :
    StepsMeet step First origin calls ↔ StepsMeet step Second origin calls := by
  induction calls generalizing origin with
  | nil => exact Iff.rfl
  | cons call rest ih =>
      exact and_congr (agree origin call init) (forall_congr' fun after =>
        forall_congr' fun stepped => ih (next origin call after init stepped))

theorem stepsMeet_concat_iff {Condition : State → Call → Prop} {origin before : State}
    {calls : List Call} {call : Call} (reached : run step origin calls = some before) :
    StepsMeet step Condition origin (calls ++ [call]) ↔
      StepsMeet step Condition origin calls ∧ Condition before call := by
  constructor
  · intro met
    obtain ⟨front, here, _⟩ := stepsMeet_append met reached
    exact ⟨front, here⟩
  · exact fun ⟨front, here⟩ => stepsMeet_concat front reached here

/-- Where the condition says when a step keeps what the calls so far and the state promise, the
promise is kept at every moment of a run exactly when every step meets the condition. -/
theorem kept_along_iff {Condition : State → Call → Prop} {origin : State}
    (Kept : List Call → State → Prop) (init : Kept [] origin)
    (next : ∀ calls before call after, run step origin calls = some before →
      Kept calls before → step before call = some after →
      (Kept (calls ++ [call]) after ↔ Condition before call))
    {calls : List Call} {final : State} (executed : run step origin calls = some final) :
    (∀ reached state, reached <+: calls → run step origin reached = some state →
      Kept reached state) ↔ StepsMeet step Condition origin calls := by
  induction calls using List.reverseRecOn generalizing final with
  | nil =>
      refine ⟨fun _ => trivial, fun _ reached state within toState => ?_⟩
      rw [List.prefix_nil.mp within] at toState ⊢
      cases toState
      exact init
  | append_singleton calls call ih =>
      obtain ⟨before, toBefore, stepped⟩ := run_concat_eq_some executed
      rw [stepsMeet_concat_iff toBefore, ← ih toBefore]
      constructor
      · intro kept
        have front : ∀ reached state, reached <+: calls →
            run step origin reached = some state → Kept reached state :=
          fun reached state within => kept reached state (within.trans (List.prefix_append _ _))
        refine ⟨front, (next calls before call final toBefore ?_ stepped).mp ?_⟩
        · exact front calls before (List.prefix_refl calls) toBefore
        · exact kept _ final (List.prefix_refl _) executed
      · rintro ⟨front, here⟩ reached state within toState
        rcases List.prefix_concat_iff.mp within with whole | part
        · rw [whole] at toState ⊢
          cases Option.some.inj (executed.symm.trans toState)
          have held := front calls before (List.prefix_refl calls) toBefore
          exact (next calls before call final toBefore held stepped).mpr here
        · exact front reached state part toState

/-- Where the condition says when a step keeps the invariant, every state of a run meets the
invariant exactly when every step meets the condition. -/
theorem holds_along_iff {Condition : State → Call → Prop} (Holds : State → Prop)
    (next : ∀ before call after, Holds before → step before call = some after →
      (Holds after ↔ Condition before call))
    {origin final : State} {calls : List Call} (init : Holds origin)
    (executed : run step origin calls = some final) :
    (∀ reached state, reached <+: calls → run step origin reached = some state →
      Holds state) ↔ StepsMeet step Condition origin calls :=
  kept_along_iff (fun _ => Holds) init
    (fun _ before call after _ held stepped => next before call after held stepped) executed

end MarketBenchmark.Foundation.Runs
