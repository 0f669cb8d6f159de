import Mathlib

/-!
# Transducers

A transducer answers every input with outputs and a new state.  Feeding it a
list of inputs collects the outputs in order.
-/

namespace MarketBenchmark.Foundation.Transducers

variable {State Input Output : Type*}

/-- Feed the inputs from left to right. -/
def feed (step : State → Input → State × List Output) : State → List Input → State × List Output
  | state, [] => (state, [])
  | state, input :: rest =>
      let answered := step state input
      let fed := feed step answered.1 rest
      (fed.1, answered.2 ++ fed.2)

variable {step : State → Input → State × List Output}

@[simp]
theorem feed_nil (state : State) : feed step state [] = (state, []) := rfl

theorem feed_cons (state : State) (input : Input) (rest : List Input) :
    feed step state (input :: rest) =
      ((feed step (step state input).1 rest).1,
        (step state input).2 ++ (feed step (step state input).1 rest).2) := rfl

theorem feed_append (state : State) (first second : List Input) :
    feed step state (first ++ second) =
      ((feed step (feed step state first).1 second).1,
        (feed step state first).2 ++ (feed step (feed step state first).1 second).2) := by
  induction first generalizing state with
  | nil => rfl
  | cons input rest ih =>
      rw [List.cons_append, feed_cons, feed_cons, ih]
      dsimp only
      rw [List.append_assoc]

/-- What every answer keeps, feeding keeps. -/
theorem feed_preserves (Holds : State → Prop) {state : State} {inputs : List Input}
    (init : Holds state)
    (next : ∀ state input, input ∈ inputs → Holds state → Holds (step state input).1) :
    Holds (feed step state inputs).1 := by
  induction inputs generalizing state with
  | nil => exact init
  | cons input rest ih =>
      exact ih (next state input List.mem_cons_self init)
        fun state other member => next state other (List.mem_cons_of_mem input member)

/-! ## Inputs in the state that they meet -/

/-- Every input meets the condition in the state and after the outputs before it. -/
def Throughout (step : State → Input → State × List Output)
    (Condition : State → List Output → Input → Prop) : State → List Output → List Input → Prop
  | _, _, [] => True
  | state, out, input :: rest => Condition state out input ∧
      Throughout step Condition (step state input).1 (out ++ (step state input).2) rest

instance Throughout.decidable {Condition : State → List Output → Input → Prop}
    [∀ state out input, Decidable (Condition state out input)] :
    ∀ (state : State) (out : List Output) (inputs : List Input),
      Decidable (Throughout step Condition state out inputs)
  | _, _, [] => inferInstanceAs (Decidable True)
  | _, _, _ :: rest => @instDecidableAnd _ _ inferInstance (Throughout.decidable _ _ rest)

/-- The inputs that do not meet the test in the state before them. -/
def without (step : State → Input → State × List Output) (Test : State → Input → Prop)
    [∀ state input, Decidable (Test state input)] : State → List Input → List Input
  | _, [] => []
  | state, input :: rest =>
      (if Test state input then [] else [input]) ++ without step Test (step state input).1 rest

theorem without_subset {Test : State → Input → Prop} [∀ state input, Decidable (Test state input)]
    {state : State} {inputs : List Input} : without step Test state inputs ⊆ inputs := by
  induction inputs generalizing state with
  | nil => exact List.Subset.refl []
  | cons input rest ih =>
      intro other member
      rcases List.mem_append.mp member with here | later
      · split at here
        · exact absurd here List.not_mem_nil
        · exact List.mem_cons.mpr (Or.inl (List.mem_singleton.mp here))
      · exact List.mem_cons_of_mem input (ih later)

end MarketBenchmark.Foundation.Transducers
