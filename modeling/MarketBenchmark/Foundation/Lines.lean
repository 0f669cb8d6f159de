import Mathlib

/-!
# Terminated lines

A text is cut into lines after each terminator; what follows the last one is an
unfinished line.  Texts that agree have the same lines, so a reader that cuts
what it has seen so far knows a prefix of the lines of the whole.
-/

namespace MarketBenchmark.Foundation.Lines

variable {Symbol : Type*}

/-- The line ends in a terminator and has no other. -/
def IsLine (terminator : Symbol) (line : List Symbol) : Prop :=
  ∃ body, terminator ∉ body ∧ line = body ++ [terminator]

theorem IsLine.ne_nil {terminator : Symbol} {line : List Symbol}
    (isLine : IsLine terminator line) : line ≠ [] := by
  obtain ⟨body, _, rfl⟩ := isLine
  exact List.append_ne_nil_of_right_ne_nil body (List.cons_ne_nil _ _)

/-- Two texts that both begin with a line begin with the same one. -/
theorem IsLine.append_inj {terminator : Symbol} {first second front back : List Symbol}
    (isFirst : IsLine terminator first) (isSecond : IsLine terminator second)
    (same : first ++ front = second ++ back) : first = second ∧ front = back := by
  obtain ⟨one, notInOne, rfl⟩ := isFirst
  obtain ⟨other, notInOther, rfl⟩ := isSecond
  rw [List.append_assoc, List.append_assoc, List.singleton_append, List.singleton_append] at same
  induction one generalizing other with
  | nil =>
      cases other with
      | nil => exact ⟨rfl, (List.cons.inj same).2⟩
      | cons symbol rest =>
          rw [(List.cons.inj same).1] at notInOther
          exact absurd List.mem_cons_self notInOther
  | cons symbol rest ih =>
      cases other with
      | nil =>
          rw [← (List.cons.inj same).1] at notInOne
          exact absurd List.mem_cons_self notInOne
      | cons otherSymbol otherRest =>
          obtain ⟨rfl, sameRest⟩ := List.cons.inj same
          obtain ⟨lines, rests⟩ := ih (fun member => notInOne (List.mem_cons_of_mem _ member))
            otherRest (fun member => notInOther (List.mem_cons_of_mem _ member)) sameRest
          rw [List.cons_append, List.cons_append, lines]
          exact ⟨rfl, rests⟩

/-- Lines at the front of a text of lines are the first of them. -/
theorem isPrefix_of_flatten {terminator : Symbol} {first second : List (List Symbol)}
    {rest : List Symbol} (isFirst : ∀ line ∈ first, IsLine terminator line)
    (isSecond : ∀ line ∈ second, IsLine terminator line)
    (same : first.flatten ++ rest = second.flatten) : first <+: second := by
  induction first generalizing second with
  | nil => exact List.nil_prefix
  | cons line lines ih =>
      obtain ⟨isLine, areLines⟩ := List.forall_mem_cons.mp isFirst
      cases second with
      | nil =>
          rw [List.flatten_cons, List.append_assoc, List.flatten_nil,
            List.append_eq_nil_iff] at same
          exact absurd same.1 isLine.ne_nil
      | cons other others =>
          obtain ⟨isOther, areOthers⟩ := List.forall_mem_cons.mp isSecond
          rw [List.flatten_cons, List.flatten_cons, List.append_assoc] at same
          obtain ⟨rfl, sameRest⟩ := isLine.append_inj isOther same
          exact List.prefix_cons_inj line |>.mpr (ih areLines areOthers sameRest)

/-- Dropping texts that are not empty shows in what is left. -/
theorem flatten_filter_eq_iff {texts : List (List Symbol)} (test : List Symbol → Bool)
    (notEmpty : ∀ text ∈ texts, text ≠ []) :
    (texts.filter test).flatten = texts.flatten ↔ ∀ text ∈ texts, test text = true := by
  refine ⟨fun same => ?_, fun all => by rw [List.filter_eq_self.mpr all]⟩
  induction texts with
  | nil => exact nofun
  | cons first rest ih =>
      obtain ⟨firstNotEmpty, restNotEmpty⟩ := List.forall_mem_cons.mp notEmpty
      cases passes : test first with
      | true =>
          rw [List.filter_cons_of_pos passes, List.flatten_cons, List.flatten_cons,
            List.append_cancel_left_eq] at same
          exact List.forall_mem_cons.mpr ⟨passes, ih restNotEmpty same⟩
      | false =>
          rw [List.filter_cons_of_neg (by rw [passes]; exact Bool.false_ne_true)] at same
          have shorter : (rest.filter test).flatten.length ≤ rest.flatten.length :=
            (List.filter_sublist.flatten).length_le
          have positive := List.length_pos_of_ne_nil firstNotEmpty
          rw [same, List.flatten_cons, List.length_append] at shorter
          omega

section Cutting

variable [DecidableEq Symbol]

/-- Cut a text that goes on with an unfinished line; returns the lines and the unfinished rest. -/
def cutLines (terminator : Symbol) :
    List Symbol → List Symbol → List (List Symbol) × List Symbol
  | line, [] => ([], line)
  | line, symbol :: rest =>
      if symbol = terminator then
        let later := cutLines terminator [] rest
        ((line ++ [symbol]) :: later.1, later.2)
      else cutLines terminator (line ++ [symbol]) rest

/-- Cutting loses nothing. -/
theorem flatten_cutLines (terminator : Symbol) (line text : List Symbol) :
    (cutLines terminator line text).1.flatten ++ (cutLines terminator line text).2 =
      line ++ text := by
  induction text generalizing line with
  | nil => simp [cutLines]
  | cons symbol rest ih =>
      rw [cutLines]
      split
      · rw [List.flatten_cons, List.append_assoc, ih, List.nil_append, List.append_assoc,
          List.singleton_append]
      · rw [ih, List.append_assoc, List.singleton_append]

theorem isLine_of_mem_cutLines {terminator : Symbol} {line text : List Symbol}
    (unfinished : terminator ∉ line) :
    (∀ cut ∈ (cutLines terminator line text).1, IsLine terminator cut) ∧
      terminator ∉ (cutLines terminator line text).2 := by
  induction text generalizing line with
  | nil => exact ⟨nofun, unfinished⟩
  | cons symbol rest ih =>
      rw [cutLines]
      split
      next isEnd =>
        subst isEnd
        obtain ⟨areLines, notInRest⟩ := ih (List.not_mem_nil (a := symbol))
        exact ⟨List.forall_mem_cons.mpr ⟨⟨line, unfinished, rfl⟩, areLines⟩, notInRest⟩
      next goesOn =>
        refine ih fun member => ?_
        rcases List.mem_append.mp member with inLine | inSymbol
        · exact unfinished inLine
        · exact goesOn (List.mem_singleton.mp inSymbol).symm

end Cutting

/-! ## Splitting at terminators -/

section Splitting

variable [DecidableEq Symbol] {terminator : Symbol}

/-- A piece without the terminator extends the first piece of what follows it. -/
theorem splitOn_append_of_not_mem {front : List Symbol} (notInFront : terminator ∉ front)
    (back : List Symbol) :
    (front ++ back).splitOn terminator =
      (back.splitOn terminator).modifyHead (front ++ ·) := by
  induction front with
  | nil =>
      rw [List.nil_append]
      cases back.splitOn terminator <;> rfl
  | cons symbol rest ih =>
      obtain ⟨different, notInRest⟩ := not_or.mp (mt List.mem_cons.mpr notInFront)
      rw [List.cons_append, List.splitOn_cons_eq_if_modifyHead,
        if_neg fun same => different (beq_iff_eq.mp same).symm, ih notInRest]
      cases back.splitOn terminator <;> rfl

/-- The pieces of whole lines come first. -/
theorem splitOn_lines {lines : List (List Symbol)} (whole : ∀ line ∈ lines, terminator ∉ line)
    (rest : List Symbol) :
    ((lines.map (· ++ [terminator])).flatten ++ rest).splitOn terminator =
      lines ++ rest.splitOn terminator := by
  induction lines with
  | nil => rfl
  | cons line others ih =>
      obtain ⟨notInLine, wholeOthers⟩ := List.forall_mem_cons.mp whole
      rw [List.map_cons, List.flatten_cons, List.append_assoc, List.append_assoc,
        List.singleton_append, List.splitOn_append_cons_self, ih wholeOthers,
        List.splitOn_eq_singleton notInLine]
      rfl

/-- An unfinished line is not longer than the piece that it starts. -/
theorem length_le_of_splitOn {front back : List Symbol} {bound : Nat}
    (notInFront : terminator ∉ front)
    (short : ∀ piece ∈ (front ++ back).splitOn terminator, piece.length ≤ bound) :
    front.length ≤ bound := by
  rw [splitOn_append_of_not_mem notInFront] at short
  cases pieces : back.splitOn terminator with
  | nil => exact absurd pieces (List.splitOn_ne_nil terminator back)
  | cons piece others =>
      rw [pieces] at short
      have first := short (front ++ piece) List.mem_cons_self
      rw [List.length_append] at first
      omega

end Splitting

end MarketBenchmark.Foundation.Lines
