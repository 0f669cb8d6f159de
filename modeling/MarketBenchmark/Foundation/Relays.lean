import Mathlib

/-!
# Items relayed as lines

A sender prints items as lines, one after the other, and a reader cuts what has
arrived at the terminators.  As long as no printed item has a terminator, what
the reader cuts off are the items, in order; an unfinished line is a part of the
next item only.
-/

namespace MarketBenchmark.Foundation.Relays

variable {Symbol Item : Type*}

/-- The items as one text of terminated lines. -/
def textOf (terminator : Symbol) (print : Item → List Symbol) (items : List Item) : List Symbol :=
  items.flatMap fun item => print item ++ [terminator]

section Text

variable {terminator : Symbol} {print : Item → List Symbol}

@[simp]
theorem textOf_nil : textOf terminator print [] = [] := rfl

theorem textOf_cons (item : Item) (rest : List Item) :
    textOf terminator print (item :: rest) =
      print item ++ terminator :: textOf terminator print rest := by
  unfold textOf
  rw [List.flatMap_cons, List.append_assoc]
  rfl

theorem textOf_append (first second : List Item) :
    textOf terminator print (first ++ second) =
      textOf terminator print first ++ textOf terminator print second :=
  List.flatMap_append

theorem textOf_singleton (item : Item) :
    textOf terminator print [item] = print item ++ [terminator] :=
  List.flatMap_singleton _ _

/-- Texts that agree up to the first terminator of both agree behind it. -/
theorem append_cons_isPrefix {front other back rest : List Symbol} (notInFront : terminator ∉ front)
    (notInOther : terminator ∉ other)
    (agree : front ++ terminator :: back <+: other ++ terminator :: rest) :
    front = other ∧ back <+: rest := by
  induction front generalizing other with
  | nil =>
      cases other with
      | nil => exact ⟨rfl, (List.cons_prefix_cons.mp agree).2⟩
      | cons symbol tail =>
          have same := (List.cons_prefix_cons.mp agree).1
          exact absurd (same ▸ List.mem_cons_self) notInOther
  | cons symbol tail ih =>
      cases other with
      | nil =>
          have same := (List.cons_prefix_cons.mp agree).1
          exact absurd (same ▸ List.mem_cons_self) notInFront
      | cons otherSymbol otherTail =>
          obtain ⟨same, agreeTails⟩ := List.cons_prefix_cons.mp agree
          obtain ⟨sameTail, behind⟩ := ih (fun member => notInFront (List.mem_cons_of_mem _ member))
            (fun member => notInOther (List.mem_cons_of_mem _ member)) agreeTails
          exact ⟨by rw [same, sameTail], behind⟩

/-- A text without a terminator that agrees with a line agrees with what is before its end. -/
theorem isPrefix_of_append_cons {text other rest : List Symbol} (notInText : terminator ∉ text)
    (agree : text <+: other ++ terminator :: rest) : text <+: other := by
  rcases Nat.lt_or_ge other.length text.length with longer | short
  · -- the terminator would lie within the text
    obtain ⟨behind, same⟩ := agree
    refine absurd ?_ notInText
    have here : (text ++ behind)[other.length]? = some terminator := by
      rw [same, List.getElem?_append_right (Nat.le_refl _), Nat.sub_self]
      rfl
    rw [List.getElem?_append_left longer] at here
    exact List.mem_of_getElem? here
  · exact List.prefix_of_prefix_length_le agree (List.prefix_append _ _) short

variable {items : List Item}

/-- A whole line that has arrived is the next item. -/
theorem next_of_line (plain : ∀ item ∈ items, terminator ∉ print item) {front back : List Symbol}
    (notInFront : terminator ∉ front)
    (arrived : front ++ terminator :: back <+: textOf terminator print items) :
    ∃ item rest, items = item :: rest ∧ front = print item ∧
      back <+: textOf terminator print rest := by
  cases items with
  | nil =>
      obtain ⟨symbols, same⟩ := arrived
      rw [List.append_assoc] at same
      exact absurd same (List.append_ne_nil_of_right_ne_nil front (List.cons_ne_nil _ _))
  | cons item rest =>
      rw [textOf_cons] at arrived
      obtain ⟨same, behind⟩ := append_cons_isPrefix notInFront (plain item List.mem_cons_self)
        arrived
      exact ⟨item, rest, rfl, same, behind⟩

/-- An unfinished line is a part of the next item. -/
theorem next_of_unfinished {text : List Symbol} (some : text ≠ []) (notInText : terminator ∉ text)
    (arrived : text <+: textOf terminator print items) :
    ∃ item rest, items = item :: rest ∧ text <+: print item := by
  cases items with
  | nil => exact absurd (List.prefix_nil.mp arrived) some
  | cons item rest =>
      rw [textOf_cons] at arrived
      exact ⟨item, rest, rfl, isPrefix_of_append_cons notInText arrived⟩

end Text

section Cutting

variable [DecidableEq Symbol]

/-- What is before the first terminator and what is behind it. -/
def cutFirst (terminator : Symbol) : List Symbol → Option (List Symbol × List Symbol)
  | [] => none
  | symbol :: rest =>
      if symbol = terminator then some ([], rest)
      else (cutFirst terminator rest).map fun cut => (symbol :: cut.1, cut.2)

variable {terminator : Symbol}

theorem cutFirst_eq_some {text front back : List Symbol}
    (cut : cutFirst terminator text = some (front, back)) :
    text = front ++ terminator :: back ∧ terminator ∉ front := by
  induction text generalizing front with
  | nil => cases cut
  | cons symbol rest ih =>
      rw [cutFirst] at cut
      split at cut
      next same =>
        cases cut
        exact ⟨by rw [same]; rfl, List.not_mem_nil⟩
      next different =>
        obtain ⟨⟨tail, behind⟩, cutRest, same⟩ := Option.map_eq_some_iff.mp cut
        cases same
        obtain ⟨whole, notInTail⟩ := ih cutRest
        refine ⟨by rw [whole]; rfl, fun member => ?_⟩
        rcases List.mem_cons.mp member with here | later
        · exact different here.symm
        · exact notInTail later

end Cutting

end MarketBenchmark.Foundation.Relays
