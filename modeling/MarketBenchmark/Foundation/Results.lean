import Mathlib

/-!
# Results of fallible programs

A program of fallible steps succeeds exactly if every step does, on what the
steps before it have returned.
-/

namespace MarketBenchmark.Foundation.Results

variable {Error First Second : Type*}

theorem bind_eq_ok_iff {result : Except Error First} {next : First → Except Error Second}
    {value : Second} :
    result.bind next = .ok value ↔ ∃ first, result = .ok first ∧ next first = .ok value := by
  constructor
  · intro succeeded
    cases result with
    | error failure => cases succeeded
    | ok first => exact ⟨first, rfl, succeeded⟩
  · rintro ⟨first, rfl, succeeded⟩
    exact succeeded

theorem map_eq_ok_iff {result : Except Error First} {f : First → Second} {value : Second} :
    result.map f = .ok value ↔ ∃ first, result = .ok first ∧ f first = value := by
  constructor
  · intro succeeded
    cases result with
    | error failure => cases succeeded
    | ok first => exact ⟨first, rfl, Except.ok.inj succeeded⟩
  · rintro ⟨first, rfl, rfl⟩
    rfl

theorem toOption_eq_some_iff {result : Except Error First} {value : First} :
    result.toOption = some value ↔ result = .ok value := by
  cases result with
  | error failure => exact ⟨nofun, nofun⟩
  | ok first => exact ⟨fun same => congrArg Except.ok (Option.some.inj same), fun same =>
      congrArg some (Except.ok.inj same)⟩

/-- All elements of a list succeed, each with its own result. -/
theorem mapM_eq_ok_iff {step : First → Except Error Second} {items : List First}
    {values : List Second} :
    items.mapM step = .ok values ↔
      List.Forall₂ (fun item value => step item = .ok value) items values := by
  induction items generalizing values with
  | nil =>
      rw [List.mapM_nil, List.forall₂_nil_left_iff]
      exact ⟨fun same => (Except.ok.inj same).symm, fun same => congrArg Except.ok same.symm⟩
  | cons item rest ih =>
      rw [List.mapM_cons]
      constructor
      · intro succeeded
        obtain ⟨value, first, succeeded⟩ := bind_eq_ok_iff.mp succeeded
        obtain ⟨others, mapped, same⟩ := bind_eq_ok_iff.mp succeeded
        rw [← Except.ok.inj same]
        exact .cons first (ih.mp mapped)
      · intro related
        cases related with
        | cons first others =>
            exact bind_eq_ok_iff.mpr ⟨_, first, bind_eq_ok_iff.mpr ⟨_, ih.mpr others, rfl⟩⟩

/-- A fold goes through where every step does, and keeps what every step keeps. -/
theorem foldlM_eq_some {State : Type*} {Item : Type*} {step : State → Item → Option State}
    {total : State → Item → State} (Holds : State → Prop) {items : List Item} {state : State}
    (init : Holds state) (each : ∀ state item, item ∈ items → Holds state →
      step state item = some (total state item) ∧ Holds (total state item)) :
    items.foldlM step state = some (items.foldl total state) ∧
      Holds (items.foldl total state) := by
  induction items generalizing state with
  | nil => exact ⟨rfl, init⟩
  | cons item rest ih =>
      obtain ⟨stepped, next⟩ := each state item List.mem_cons_self init
      rw [List.foldlM_cons, stepped]
      exact ih next fun other later member => each other later (List.mem_cons_of_mem item member)

end MarketBenchmark.Foundation.Results
