import Mathlib

/-!
# Labels that end in a number

Labels are texts joined by a separator that no decimal number contains.  The
number after the last separator can be read back from the whole label, and so
can a padded number before the first one.  Texts are trimmed at both ends.
-/

namespace MarketBenchmark.Foundation.Labels

/-- What follows the last occurrence of a separator is determined. -/
theorem append_cons_inj_right {Symbol : Type*} {separator : Symbol}
    {first second front back : List Symbol} (notInFront : separator ∉ front)
    (notInBack : separator ∉ back)
    (same : first ++ separator :: front = second ++ separator :: back) : front = back := by
  rcases List.append_eq_append_iff.mp same with ⟨between, _, split⟩ | ⟨between, _, split⟩
  · cases between with
    | nil => exact (List.cons.inj split).2
    | cons head rest =>
        refine absurd ?_ notInFront
        rw [(List.cons.inj split).2]
        exact List.mem_append_right rest List.mem_cons_self
  · cases between with
    | nil => exact (List.cons.inj split).2.symm
    | cons head rest =>
        refine absurd ?_ notInBack
        rw [(List.cons.inj split).2]
        exact List.mem_append_right rest List.mem_cons_self

theorem toList_toString (number : Nat) : (toString number).toList = Nat.toDigits 10 number := by
  rw [Nat.toString_eq_repr, Nat.toList_repr]

/-- Different numbers have different decimal digits. -/
theorem toDigits_inj {first second : Nat}
    (same : Nat.toDigits 10 first = Nat.toDigits 10 second) : first = second := by
  have read : Nat.ofDigitChars 10 (Nat.toDigits 10 first) 0 = first :=
    Nat.ofDigitChars_ten_toDigits
  rw [← read, same, Nat.ofDigitChars_ten_toDigits]

theorem notMem_toDigits {separator : Char} (notDigit : separator.isDigit = false)
    (number : Nat) : separator ∉ Nat.toDigits 10 number := by
  intro member
  have digit := Nat.isDigit_of_mem_toDigits (by decide) (by decide) member
  rw [notDigit] at digit
  cases digit

/-- Two labels that end in different numbers are different. -/
theorem number_inj {separator : Char} (notDigit : separator.isDigit = false)
    {first second : String} {firstNumber secondNumber : Nat}
    (same : first ++ separator.toString ++ toString firstNumber =
      second ++ separator.toString ++ toString secondNumber) : firstNumber = secondNumber := by
  have lists := congrArg String.toList same
  simp only [String.toList_append, Char.toString, String.toList_singleton, toList_toString,
    List.append_assoc, List.singleton_append] at lists
  exact toDigits_inj (append_cons_inj_right (notMem_toDigits notDigit _)
    (notMem_toDigits notDigit _) lists)

/-- A text between braces. -/
def braced (text : String) : String := "\x7b" ++ text ++ "\x7d"

/-! ## Trimming -/

/-- The characters with the Unicode property `White_Space`. -/
def isWhitespace (symbol : Char) : Bool :=
  let code := symbol.toNat
  decide (9 ≤ code ∧ code ≤ 13) || decide (8192 ≤ code ∧ code ≤ 8202) ||
    code ∈ [32, 133, 160, 5760, 8232, 8233, 8239, 8287, 12288]

/-- The text without the symbols at both ends that satisfy a test. -/
def trimMatches {Symbol : Type*} (test : Symbol → Bool) (text : List Symbol) : List Symbol :=
  (text.dropWhile test).rdropWhile test

def trim (text : List Char) : List Char := trimMatches isWhitespace text

theorem trimMatches_eq_self {Symbol : Type*} {test : Symbol → Bool} {text : List Symbol}
    (kept : ∀ symbol ∈ text, test symbol = false) : trimMatches test text = text := by
  have front : text.dropWhile test = text :=
    List.dropWhile_eq_self_iff.mpr fun nonempty =>
      Bool.eq_false_iff.mp (kept _ (List.getElem_mem nonempty))
  have back : text.rdropWhile test = text :=
    List.rdropWhile_eq_self_iff.mpr fun nonempty =>
      Bool.eq_false_iff.mp (kept _ (List.getLast_mem nonempty))
  unfold trimMatches
  rw [front, back]

/-! ## Splitting -/

variable {Symbol : Type*} [DecidableEq Symbol]

/-- The parts before and after the first separator. -/
def splitOnce (separator : Symbol) (text : List Symbol) : Option (List Symbol × List Symbol) :=
  if separator ∈ text then
    some (text.takeWhile (· ≠ separator), (text.dropWhile (· ≠ separator)).tail)
  else none

/-- The parts before and after the last separator. -/
def rsplitOnce (separator : Symbol) (text : List Symbol) : Option (List Symbol × List Symbol) :=
  (splitOnce separator text.reverse).map fun parts => (parts.2.reverse, parts.1.reverse)

theorem splitOnce_append {separator : Symbol} {front back : List Symbol}
    (notInFront : separator ∉ front) :
    splitOnce separator (front ++ separator :: back) = some (front, back) := by
  have others : ∀ symbol ∈ front, decide (symbol ≠ separator) = true :=
    fun symbol member => decide_eq_true fun same => notInFront (same ▸ member)
  unfold splitOnce
  rw [if_pos (List.mem_append_right front List.mem_cons_self),
    List.takeWhile_append_of_pos others, List.dropWhile_append_of_pos others]
  simp

theorem rsplitOnce_append {separator : Symbol} {front back : List Symbol}
    (notInBack : separator ∉ back) :
    rsplitOnce separator (front ++ separator :: back) = some (front, back) := by
  have notInReverse : separator ∉ back.reverse := fun member =>
    notInBack (List.mem_reverse.mp member)
  unfold rsplitOnce
  rw [List.reverse_append, List.reverse_cons, List.append_assoc, List.singleton_append,
    splitOnce_append notInReverse, Option.map_some, List.reverse_reverse, List.reverse_reverse]

/-- The text without its ending. -/
def stripSuffix (ending text : List Symbol) : Option (List Symbol) :=
  if ending <:+ text then some (text.take (text.length - ending.length)) else none

theorem stripSuffix_append (ending text : List Symbol) :
    stripSuffix ending (text ++ ending) = some text := by
  unfold stripSuffix
  rw [if_pos (List.suffix_append text ending), List.length_append, Nat.add_sub_cancel,
    List.take_left]

/-! ## Decimal numbers -/

/-- The value of a text of decimal digits. -/
def parseDecimal (text : List Char) : Option Nat :=
  if text ≠ [] ∧ ∀ symbol ∈ text, symbol.isDigit = true then some (Nat.ofDigitChars 10 text 0)
  else none

/-- A number with zeros in front of it, if it is shorter than the width. -/
def padded (width number : Nat) : List Char :=
  List.replicate (width - (Nat.toDigits 10 number).length) '0' ++ Nat.toDigits 10 number

theorem isDigit_of_mem_padded {width number : Nat} {symbol : Char}
    (member : symbol ∈ padded width number) : symbol.isDigit = true := by
  rcases List.mem_append.mp member with zero | digit
  · rw [List.eq_of_mem_replicate zero]
    rfl
  · exact Nat.isDigit_of_mem_toDigits (by decide) (by decide) digit

theorem notMem_padded {separator : Char} (notDigit : separator.isDigit = false)
    (width number : Nat) : separator ∉ padded width number := by
  intro member
  rw [isDigit_of_mem_padded member] at notDigit
  cases notDigit

theorem length_padded {width number : Nat} (positive : 0 < width) (fits : number < 10 ^ width) :
    (padded width number).length = width := by
  have short := (Nat.length_toDigits_le_iff (by decide : 1 < 10) positive).mpr fits
  unfold padded
  rw [List.length_append, List.length_replicate]
  omega

theorem ofDigitChars_zeros (count : Nat) :
    Nat.ofDigitChars 10 (List.replicate count '0') 0 = 0 := by
  induction count with
  | zero => rfl
  | succ count ih =>
      rw [List.replicate_succ, Nat.ofDigitChars_cons]
      exact ih

theorem parseDecimal_toDigits (number : Nat) :
    parseDecimal (Nat.toDigits 10 number) = some number := by
  unfold parseDecimal
  rw [if_pos ⟨Nat.toDigits_ne_nil, fun symbol member =>
    Nat.isDigit_of_mem_toDigits (by decide) (by decide) member⟩, Nat.ofDigitChars_ten_toDigits]

/-- Padding does not change the value. -/
theorem ofDigitChars_padded (width number : Nat) :
    Nat.ofDigitChars 10 (padded width number) 0 = number := by
  unfold padded
  rw [Nat.ofDigitChars_append, ofDigitChars_zeros, Nat.ofDigitChars_ten_toDigits]

theorem parseDecimal_padded (width number : Nat) :
    parseDecimal (padded width number) = some number := by
  have nonempty : padded width number ≠ [] :=
    List.append_ne_nil_of_right_ne_nil _ Nat.toDigits_ne_nil
  unfold parseDecimal
  rw [if_pos ⟨nonempty, fun symbol member => isDigit_of_mem_padded member⟩,
    ofDigitChars_padded]

/-! ## The order of padded numbers -/

/-- A smaller number is smaller than a larger one, whatever digits both get. -/
theorem ofDigitChars_lt_of_start {first second : List Char} {start other : Nat}
    (sameLength : first.length = second.length)
    (digits : ∀ symbol ∈ first, symbol.isDigit = true) (less : start < other) :
    Nat.ofDigitChars 10 first start < Nat.ofDigitChars 10 second other := by
  induction first generalizing second start other with
  | nil =>
      rw [List.length_eq_zero_iff.mp sameLength.symm]
      exact less
  | cons symbol rest ih =>
      cases second with
      | nil => cases sameLength
      | cons another others =>
          rw [Nat.ofDigitChars_cons, Nat.ofDigitChars_cons]
          refine ih (Nat.succ.inj sameLength)
            (fun symbol member => digits symbol (List.mem_cons_of_mem _ member)) ?_
          have small : symbol.toNat - '0'.toNat ≤ 9 :=
            Nat.sub_le_of_le_add (Char.isDigit_iff_toNat.mp (digits symbol List.mem_cons_self)).2
          omega

/-- Equally many digits that come first in the order of texts are the smaller number. -/
theorem ofDigitChars_lt {first second : List Char} (sameLength : first.length = second.length)
    (firstDigits : ∀ symbol ∈ first, symbol.isDigit = true)
    (secondDigits : ∀ symbol ∈ second, symbol.isDigit = true) (less : first < second)
    (start : Nat) : Nat.ofDigitChars 10 first start < Nat.ofDigitChars 10 second start := by
  induction first generalizing second start with
  | nil =>
      rw [List.length_eq_zero_iff.mp sameLength.symm] at less
      exact absurd less (List.not_lt_nil _)
  | cons symbol rest ih =>
      cases second with
      | nil => cases sameLength
      | cons other others =>
          rw [Nat.ofDigitChars_cons, Nat.ofDigitChars_cons]
          have restDigits : ∀ symbol ∈ rest, symbol.isDigit = true :=
            fun symbol member => firstDigits symbol (List.mem_cons_of_mem _ member)
          rcases List.cons_lt_cons_iff.mp less with smaller | ⟨rfl, later⟩
          · refine ofDigitChars_lt_of_start (Nat.succ.inj sameLength) restDigits ?_
            have least := Char.isDigit_iff_toNat.mp (firstDigits symbol List.mem_cons_self)
            have below : symbol.toNat < other.toNat := smaller
            omega
          · exact ih (Nat.succ.inj sameLength) restDigits
              (fun symbol member => secondDigits symbol (List.mem_cons_of_mem _ member)) later _

/-- Numbers padded to one width are in the order of their texts. -/
theorem padded_lt_iff {width first second : Nat} (positive : 0 < width)
    (firstFits : first < 10 ^ width) (secondFits : second < 10 ^ width) :
    padded width first < padded width second ↔ first < second := by
  have sameLength : (padded width first).length = (padded width second).length := by
    rw [length_padded positive firstFits, length_padded positive secondFits]
  have digits : ∀ number, ∀ symbol ∈ padded width number, symbol.isDigit = true :=
    fun number symbol => isDigit_of_mem_padded
  constructor
  · intro less
    have values := ofDigitChars_lt sameLength (digits first) (digits second) less 0
    rwa [ofDigitChars_padded, ofDigitChars_padded] at values
  · intro less
    rcases lt_trichotomy (padded width first) (padded width second) with smaller | same | larger
    · exact smaller
    · have read := ofDigitChars_padded width first
      rw [same, ofDigitChars_padded] at read
      exact absurd less (Nat.not_lt.mpr (Nat.le_of_eq read))
    · have values := ofDigitChars_lt sameLength.symm (digits second) (digits first) larger 0
      rw [ofDigitChars_padded, ofDigitChars_padded] at values
      exact absurd values (Nat.lt_asymm less)

/-- The smaller of two equally long texts stays smaller, whatever follows. -/
theorem append_lt_append {Symbol : Type*} [LT Symbol] {first second : List Symbol}
    (sameLength : first.length = second.length) (less : first < second)
    (front back : List Symbol) : first ++ front < second ++ back := by
  induction first generalizing second with
  | nil =>
      rw [List.length_eq_zero_iff.mp sameLength.symm] at less
      exact absurd less (List.not_lt_nil _)
  | cons symbol rest ih =>
      cases second with
      | nil => cases sameLength
      | cons other others =>
          rw [List.cons_append, List.cons_append, List.cons_lt_cons_iff]
          rcases List.cons_lt_cons_iff.mp less with smaller | ⟨same, later⟩
          · exact Or.inl smaller
          · exact Or.inr ⟨same, ih (Nat.succ.inj sameLength) later⟩

end MarketBenchmark.Foundation.Labels
